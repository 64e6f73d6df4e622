import LightChain.Config.Params
import LightChain.Library.Fallible
import LightChain.Library.MachineInt
import LightChain.Library.Run
import LightChain.Validator.KV.Store

/-!
# The slashing check of a proposal

`SlashableProposalCheck` compares a block with the lowest signed slot of the key and with the
signing root stored for its slot, and saves it if nothing speaks against it. Every save also
deletes the slots that are a weak subjectivity period older than the saved one. `Protects` is
what the store of a key knows about its accepted proposals: their roots, or that they are so
old that their roots were deleted.
-/
namespace LightChain.KV
open Library List Function

structure ProposalStore (PubKey : Type) where
  historicProposals : PubKey → Option Bucket
  lowestSignedProposals : PubKey → Option Bytes
  highestSignedProposals : PubKey → Option Bytes

def ProposalStore.new (PubKey : Type) : ProposalStore PubKey :=
  ⟨fun _ => none, fun _ => none, fun _ => none⟩

inductive ProposalError where
  | belowLowest (slot lowest : Nat)
  | atLowest (slot lowest : Nat)
  | failedBlockSignLocal
deriving DecidableEq, Repr

def ProposalError.message : ProposalError → String
  | .belowLowest slot lowest =>
    "could not sign block with slot < lowest signed slot in db, block slot: " ++ toString slot ++
      " < lowest signed slot: " ++ toString lowest
  | .atLowest slot lowest =>
    "could not sign block with slot == lowest signed slot in db if it is not a repeat signing, " ++
      "block slot: " ++ toString slot ++ " == slowest signed slot: " ++ toString lowest
  | .failedBlockSignLocal => "block rejected by local protection"

section Check

variable (cfg : BeaconChainConfig) {PubKey : Type}

def slotEpoch (slot : Nat) : Nat := slot / cfg.slotsPerEpoch

/-- The epoch of a slot is older than the weak subjectivity period. -/
def prunable (newestSlot slot : Nat) : Bool :=
  add64 (slotEpoch cfg slot) cfg.weakSubjectivityPeriod ≤ slotEpoch cfg newestSlot

/-- The cursor is set to the first key again after each deletion. -/
def pruneProposalHistoryBySlot (valBucket : Bucket) (newestSlot : Nat) : Bucket :=
  eraseWhile valBucket fun k => prunable cfg newestSlot (ofWord k)

/-- The highest signed slot after a write. It is overridden by a higher one. -/
def highestAfter (stored : Option Bytes) (slot : Nat) : Option Bytes :=
  let bytes := stored.getD []
  if bytes.length = 0 ∨ ofWord bytes < slot then some (toWord slot) else stored

variable (s : ProposalStore PubKey) (pubKey : PubKey)

def saveProposalHistoryForSlot [DecidableEq PubKey] (slot : Nat) (signingRoot : Bytes) :
    ProposalStore PubKey where
  historicProposals :=
    let valBucket := ((s.historicProposals pubKey).getD ∅).insert (toWord slot) signingRoot
    Function.update s.historicProposals pubKey
      (some (pruneProposalHistoryBySlot cfg valBucket slot))
  lowestSignedProposals := Function.update s.lowestSignedProposals pubKey
    (lowestAfter (s.lowestSignedProposals pubKey) slot)
  highestSignedProposals := Function.update s.highestSignedProposals pubKey
    (highestAfter (s.highestSignedProposals pubKey) slot)

/-- The stored root copied into a 32-byte array, empty if the proposal has no root, and `none`
if there is no proposal. -/
def proposalHistoryForSlot (slot : Nat) : Option Bytes :=
  match s.historicProposals pubKey with
  | none => none
  | some valBucket => (valBucket[toWord slot]?).map fun sr =>
      if sr.length = 0 then [] else sr.take 32 ++ List.replicate (32 - sr.length) 0

def lowestSignedProposal : Option Nat :=
  lowestSignedEpoch (s.lowestSignedProposals pubKey)

def highestSignedProposal : Option Nat :=
  lowestSignedEpoch (s.highestSignedProposals pubKey)

/-- A proposal is known for the slot, but not its root, or the root is another one. -/
def conflicts (history : Option Bytes) (signingRoot : Root) : Bool :=
  match history with
  | none => false
  | some prevSigningRoot => prevSigningRoot.isEmpty || prevSigningRoot != signingRoot.bytes

/-- The comparison with the lowest signed slot. A block at that slot has to be a repeated
one. -/
def checkLowestSlot (lowest : Option Nat) (history : Option Bytes) (slot : Nat)
    (signingRoot : Root) : Except ProposalError Unit :=
  match lowest with
  | none => .ok ()
  | some lowest =>
    if slot < lowest then .error (.belowLowest slot lowest)
    else if slot = lowest ∧ (history = none ∨ conflicts history signingRoot) then
      .error (.atLowest slot lowest)
    else .ok ()

def checkProposal (slot : Nat) (signingRoot : Root) :
    Except ProposalError Unit := do
  let history := proposalHistoryForSlot s pubKey slot
  checkLowestSlot (lowestSignedProposal s pubKey) history slot signingRoot
  if conflicts history signingRoot then .error .failedBlockSignLocal

def slashableProposalCheck [DecidableEq PubKey] (slot : Nat) (signingRoot : Root) :
    Except ProposalError (ProposalStore PubKey) := do
  checkProposal s pubKey slot signingRoot
  return saveProposalHistoryForSlot cfg s pubKey slot signingRoot.bytes

end Check

section Bounds

/-- A bound that is stored at all is a word. -/
def IsBound (stored : Option Bytes) : Prop :=
  ∀ bytes, stored = some bytes → ∃ n < 2 ^ 64, bytes = toWord n

variable {n : Nat}

theorem lowestSignedEpoch_toWord (hn : n < 2 ^ 64) :
    lowestSignedEpoch (some (toWord n)) = some n := by
  simp [lowestSignedEpoch, ofWord_toWord hn]

variable {stored : Option Bytes} {slot : Nat}

theorem IsBound.cases (h : IsBound stored) :
    stored = none ∨ ∃ n < 2 ^ 64, stored = some (toWord n) := by
  cases stored with
  | none => exact .inl rfl
  | some bytes =>
    obtain ⟨n, hn, rfl⟩ := h bytes rfl
    exact .inr ⟨n, hn, rfl⟩

theorem isBound_update {κ : Type} [DecidableEq κ] {bounds : κ → Option Bytes}
    (h : ∀ k, IsBound (bounds k)) (hn : n < 2 ^ 64) (hstored : stored = some (toWord n)) {key : κ}
    (k : κ) : IsBound (Function.update bounds key stored k) := by
  by_cases hk : k = key
  · subst hk
    rw [update_self, hstored]
    exact fun _ hbytes => ⟨n, hn, (Option.some.inj hbytes).symm⟩
  · rw [update_of_ne hk]
    exact h k

theorem lowestAfter_toWord (hn : n < 2 ^ 64) :
    lowestAfter (some (toWord n)) slot = some (toWord (min n slot)) := by
  by_cases hlt : slot < n
  · simp [lowestAfter, ofWord_toWord hn, hlt, min_eq_right hlt.le]
  · simp [lowestAfter, ofWord_toWord hn, hlt, min_eq_left (not_lt.1 hlt)]

theorem highestAfter_toWord (hn : n < 2 ^ 64) :
    highestAfter (some (toWord n)) slot = some (toWord (max n slot)) := by
  by_cases hlt : n < slot
  · simp [highestAfter, ofWord_toWord hn, hlt, max_eq_right hlt.le]
  · simp [highestAfter, ofWord_toWord hn, hlt, max_eq_left (not_lt.1 hlt)]

theorem lowestAfter_eq (h : IsBound stored) (hslot : slot < 2 ^ 64) :
    ∃ n < 2 ^ 64, lowestAfter stored slot = some (toWord n) ∧ n ≤ slot ∧
      ∀ m, lowestSignedEpoch stored = some m → n ≤ m := by
  rcases h.cases with rfl | ⟨n, hn, rfl⟩
  · exact ⟨slot, hslot, rfl, le_rfl, nofun⟩
  · refine ⟨min n slot, by omega, lowestAfter_toWord hn, min_le_right _ _, fun m hm => ?_⟩
    cases (lowestSignedEpoch_toWord hn).symm.trans hm
    exact min_le_left _ _

theorem highestAfter_eq (h : IsBound stored) (hslot : slot < 2 ^ 64) :
    ∃ n < 2 ^ 64, highestAfter stored slot = some (toWord n) ∧ slot ≤ n ∧
      ∀ m, lowestSignedEpoch stored = some m → m ≤ n := by
  rcases h.cases with rfl | ⟨n, hn, rfl⟩
  · exact ⟨slot, hslot, rfl, le_rfl, nofun⟩
  · refine ⟨max n slot, by omega, highestAfter_toWord hn, le_max_right _ _, fun m hm => ?_⟩
    cases (lowestSignedEpoch_toWord hn).symm.trans hm
    exact le_max_left _ _

end Bounds

section Run

variable (cfg : BeaconChainConfig) {PubKey : Type} [DecidableEq PubKey]

/-- A block that a key is asked to sign. -/
structure ProposalCall (PubKey : Type) where
  pubKey : PubKey
  slot : Nat
  signingRoot : Root
  slot_lt : slot < 2 ^ 64 := by decide
deriving DecidableEq, Repr

/-- A store and the proposals that were accepted. -/
structure ProposalSession (PubKey : Type) where
  store : ProposalStore PubKey
  accepted : List (ProposalCall PubKey)

def ProposalSession.check (w : ProposalSession PubKey) (c : ProposalCall PubKey) :
    ProposalSession PubKey :=
  match slashableProposalCheck cfg w.store c.pubKey c.slot c.signingRoot with
  | .ok s => ⟨s, w.accepted ++ [c]⟩
  | .error _ => w

def ProposalSession.run (calls : List (ProposalCall PubKey)) : ProposalSession PubKey :=
  calls.foldl (ProposalSession.check cfg) ⟨ProposalStore.new PubKey, []⟩

/-- What the store of a key knows about an accepted proposal. Its root is still stored, or it
is a weak subjectivity period older than the highest signed slot. -/
structure Protects (s : ProposalStore PubKey) (p : ProposalCall PubKey) : Prop where
  lowest : ∃ n, lowestSignedProposal s p.pubKey = some n ∧ n ≤ p.slot
  root : ((s.historicProposals p.pubKey).getD ∅)[toWord p.slot]? = some p.signingRoot.bytes ∨
    ((s.historicProposals p.pubKey).getD ∅)[toWord p.slot]? = none ∧
      ∃ n, highestSignedProposal s p.pubKey = some n ∧ prunable cfg n p.slot

structure ProposalSession.Inv (w : ProposalSession PubKey) : Prop where
  lowest : ∀ k, IsBound (w.store.lowestSignedProposals k)
  highest : ∀ k, IsBound (w.store.highestSignedProposals k)
  protects : ∀ p ∈ w.accepted, Protects cfg w.store p

variable {cfg} {s : ProposalStore PubKey}

theorem prunable_mono {n m slot : Nat} (h : prunable cfg n slot) (hle : n ≤ m) :
    prunable cfg m slot := by
  simp only [prunable, decide_eq_true_eq] at h ⊢
  exact h.trans (Nat.div_le_div_right hle)

variable {p c : ProposalCall PubKey}

/-- After a save, the saved proposal and the earlier ones that do not conflict with it are
protected. -/
theorem Protects.save (hlowest : IsBound (s.lowestSignedProposals c.pubKey))
    (hhighest : IsBound (s.highestSignedProposals c.pubKey))
    (h : p = c ∨ Protects cfg s p ∧ (p.pubKey = c.pubKey → p.slot = c.slot →
      p.signingRoot = c.signingRoot)) :
    Protects cfg (saveProposalHistoryForSlot cfg s c.pubKey c.slot c.signingRoot.bytes) p := by
  by_cases hkey : p.pubKey = c.pubKey
  · obtain ⟨low, hlow, hlowest', hlowc, hlow'⟩ := lowestAfter_eq hlowest c.slot_lt
    obtain ⟨high, hhigh, hhighest', hhighc, hhigh'⟩ := highestAfter_eq hhighest c.slot_lt
    have hlow_eq : lowestSignedProposal
        (saveProposalHistoryForSlot cfg s c.pubKey c.slot c.signingRoot.bytes) p.pubKey =
        some low := by
      simp [lowestSignedProposal, saveProposalHistoryForSlot, hkey, hlowest',
        lowestSignedEpoch_toWord hlow]
    have hhigh_eq : highestSignedProposal
        (saveProposalHistoryForSlot cfg s c.pubKey c.slot c.signingRoot.bytes) p.pubKey =
        some high := by
      simp [highestSignedProposal, saveProposalHistoryForSlot, hkey, hhighest',
        lowestSignedEpoch_toWord hhigh]
    refine ⟨⟨low, hlow_eq, ?_⟩, ?_⟩
    · obtain rfl | ⟨⟨⟨n, hn, hle⟩, -⟩, -⟩ := h
      · exact hlowc
      · rw [lowestSignedProposal, hkey] at hn
        exact (hlow' n hn).trans hle
    · have hbucket : ((saveProposalHistoryForSlot cfg s c.pubKey c.slot
          c.signingRoot.bytes).historicProposals p.pubKey).getD ∅ =
          pruneProposalHistoryBySlot cfg (((s.historicProposals c.pubKey).getD ∅).insert
            (toWord c.slot) c.signingRoot.bytes) c.slot := by
        simp [saveProposalHistoryForSlot, hkey]
      rw [hbucket]
      rcases getElem?_eraseWhile_cases (((s.historicProposals c.pubKey).getD ∅).insert
          (toWord c.slot) c.signingRoot.bytes) (fun k => prunable cfg c.slot (ofWord k))
          (toWord p.slot) with hkept | ⟨hold, hnone⟩
      · -- The entry is kept: it is the new one, or the one that was there.
        rw [pruneProposalHistoryBySlot, hkept, Std.TreeMap.getElem?_insert]
        have hcmp : compare (toWord c.slot) (toWord p.slot) = .eq ↔ c.slot = p.slot := by
          rw [compare_toWord c.slot_lt p.slot_lt, compare_eq_iff_eq]
        simp only [hcmp]
        obtain rfl | ⟨⟨-, hroot⟩, hsame⟩ := h
        · exact .inl (if_pos rfl)
        · by_cases hslot : c.slot = p.slot
          · rw [if_pos hslot, hsame hkey hslot.symm]
            exact .inl rfl
          · rw [if_neg hslot]
            rw [hkey] at hroot
            refine hroot.imp_right fun ⟨hnone, n, hn, hprunable⟩ => ⟨hnone, high, hhigh_eq, ?_⟩
            exact prunable_mono hprunable (hhigh' n hn)
      · rw [ofWord_toWord p.slot_lt] at hold
        exact .inr ⟨hnone, high, hhigh_eq, prunable_mono hold hhighc⟩
  · -- The save is about another key.
    obtain rfl | ⟨⟨hlow, hroot⟩, -⟩ := h
    · exact absurd rfl hkey
    · refine ⟨?_, ?_⟩
      · simpa [lowestSignedProposal, saveProposalHistoryForSlot, update_of_ne hkey]
          using hlow
      · simpa [highestSignedProposal, saveProposalHistoryForSlot, update_of_ne hkey]
          using hroot

omit [DecidableEq PubKey] in
theorem checkProposal_eq_ok {pubKey : PubKey} {slot : Nat} {root : Root} :
    checkProposal s pubKey slot root = .ok () ↔
      conflicts (proposalHistoryForSlot s pubKey slot) root = false ∧
        ∀ lowest, lowestSignedProposal s pubKey = some lowest →
          lowest ≤ slot ∧ (slot = lowest → proposalHistoryForSlot s pubKey slot ≠ none) := by
  simp only [checkProposal, bind_eq_ok, throw_if_eq_ok]
  cases lowestSignedProposal s pubKey with
  | none => simp [checkLowestSlot]
  | some lowest =>
    simp only [checkLowestSlot, Option.some.injEq, forall_eq']
    split_ifs with hlt hat <;> grind

variable (cfg) in
/-- The slot is not above the lowest signed slot, or it is not so old, compared with the
highest signed slot, that it may have been deleted. -/
def Recent (w : ProposalSession PubKey) (c : ProposalCall PubKey) : Prop :=
  (∃ n, lowestSignedProposal w.store c.pubKey = some n ∧ c.slot ≤ n) ∨
    ∀ n, highestSignedProposal w.store c.pubKey = some n → prunable cfg n c.slot = false

variable {w : ProposalSession PubKey}

omit [DecidableEq PubKey] in
theorem Protects.repeats (h : Protects cfg w.store p) (hc : Recent cfg w c)
    (hcheck : checkProposal w.store c.pubKey c.slot c.signingRoot = .ok ())
    (hkey : p.pubKey = c.pubKey) (hslot : p.slot = c.slot) : p.signingRoot = c.signingRoot := by
  obtain ⟨hconflicts, hlowest⟩ := checkProposal_eq_ok.1 hcheck
  obtain ⟨low, hlow, hle⟩ := h.lowest
  have hroot := h.root
  rw [hkey] at hlow hroot
  rw [hslot] at hle hroot
  have hhistory : ∀ b, ((w.store.historicProposals c.pubKey).getD ∅)[toWord c.slot]? = b →
      proposalHistoryForSlot w.store c.pubKey c.slot = b.map fun sr =>
        if sr.length = 0 then [] else sr.take 32 ++ List.replicate (32 - sr.length) 0 := by
    rintro b rfl
    rw [proposalHistoryForSlot]
    cases w.store.historicProposals c.pubKey with
    | none => simp
    | some valBucket => rfl
  rcases hroot with hstored | ⟨hnone, high, hhigh, hprunable⟩
  · have hlength := p.signingRoot.length_eq
    rw [hhistory _ hstored] at hconflicts
    simp only [conflicts, Option.map_some, hlength, if_neg (show ¬ 32 = 0 by decide),
      take_of_length_le hlength.le, Nat.sub_self, replicate_zero, append_nil,
      Bool.or_eq_false_iff, bne_eq_false_iff_eq] at hconflicts
    exact Root.ext hconflicts.2
  · -- The root was deleted, so that a block at the lowest slot is refused.
    rcases hc with ⟨n, hn, hcn⟩ | hrecent
    · cases hlow.symm.trans hn
      exact absurd (hhistory _ hnone) ((hlowest low hlow).2 (le_antisymm hcn hle))
    · rw [hrecent high hhigh] at hprunable
      cases hprunable

/-- The proposals of a key for one slot have the same root. -/
def OncePerSlot (accepted : List (ProposalCall PubKey)) : Prop :=
  ∀ p ∈ accepted, ∀ q ∈ accepted, p.pubKey = q.pubKey → p.slot = q.slot →
    p.signingRoot = q.signingRoot

theorem ProposalSession.Inv.check (h : w.Inv cfg) (hpast : OncePerSlot w.accepted)
    {c : ProposalCall PubKey} (hc : Recent cfg w c) :
    (w.check cfg c).Inv cfg ∧ OncePerSlot (w.check cfg c).accepted := by
  rw [ProposalSession.check]
  cases hrun : slashableProposalCheck cfg w.store c.pubKey c.slot c.signingRoot with
  | error e => exact ⟨h, hpast⟩
  | ok s =>
    obtain ⟨_, hcheck, hsave⟩ := bind_eq_ok.1 hrun
    obtain rfl := pure_eq_ok.1 hsave
    have hsame : ∀ p ∈ w.accepted, p.pubKey = c.pubKey → p.slot = c.slot →
        p.signingRoot = c.signingRoot := fun p hp => (h.protects p hp).repeats hc hcheck
    refine ⟨⟨fun k => ?_, fun k => ?_, fun p hp => ?_⟩, fun p hp q hq hkey hslot => ?_⟩
    · obtain ⟨n, hn, hstored, -⟩ := lowestAfter_eq (h.lowest c.pubKey) c.slot_lt
      exact isBound_update h.lowest hn hstored k
    · obtain ⟨n, hn, hstored, -⟩ := highestAfter_eq (h.highest c.pubKey) c.slot_lt
      exact isBound_update h.highest hn hstored k
    · refine .save (h.lowest _) (h.highest _) ?_
      obtain hp | hp := mem_append.1 hp
      · exact .inr ⟨h.protects p hp, hsame p hp⟩
      · exact .inl (mem_singleton.1 hp)
    · obtain hp | hp := mem_append.1 hp <;> obtain hq | hq := mem_append.1 hq
      · exact hpast p hp q hq hkey hslot
      · cases mem_singleton.1 hq
        exact hsame p hp hkey hslot
      · cases mem_singleton.1 hp
        exact (hsame q hq hkey.symm hslot.symm).symm
      · cases mem_singleton.1 hp
        cases mem_singleton.1 hq
        rfl

variable (cfg) in
/-- In a run whose proposals are all recent, two accepted proposals of a key for one slot have
the same signing root. -/
theorem no_double_proposal (calls : List (ProposalCall PubKey))
    (h : Along (ProposalSession.check cfg) (Recent cfg) ⟨ProposalStore.new PubKey, []⟩ calls)
    (p q : ProposalCall PubKey) (hp : p ∈ (ProposalSession.run cfg calls).accepted)
    (hq : q ∈ (ProposalSession.run cfg calls).accepted) (hkey : p.pubKey = q.pubKey)
    (hslot : p.slot = q.slot) : p.signingRoot = q.signingRoot := by
  have hnew : ProposalSession.Inv cfg ⟨ProposalStore.new PubKey, []⟩ :=
    ⟨fun _ => nofun, fun _ => nofun, nofun⟩
  have hrun := h.foldl (I := fun w => w.Inv cfg ∧ OncePerSlot w.accepted) ⟨hnew, nofun⟩
    fun w c hw hc => hw.1.check hw.2 hc
  exact hrun.2 p hp q hq hkey hslot

end Run

open ProposalSession

section Examples

/-- Two blocks of epoch 10, a repeated one and one of the next epoch. -/
def closeProposals : List (ProposalCall Unit) :=
  [⟨(), 320, rootOf 0, by decide⟩, ⟨(), 321, rootOf 0, by decide⟩,
    ⟨(), 321, rootOf 0, by decide⟩, ⟨(), 352, rootOf 1, by decide⟩]

theorem closeProposals_repeat :
    (run {} closeProposals).accepted = closeProposals ∧
      (closeProposals[1]).signingRoot = (closeProposals[2]).signingRoot := by
  have hall : (run {} closeProposals).accepted = closeProposals := by
    decide +kernel
  have hfirst : highestSignedProposal (run {} (closeProposals.take 1)).store () =
      some 320 := by decide +kernel
  have hsecond : highestSignedProposal (run {} (closeProposals.take 2)).store () =
      some 321 := by decide +kernel
  have hthird : highestSignedProposal (run {} (closeProposals.take 3)).store () =
      some 321 := by decide +kernel
  refine ⟨hall, no_double_proposal {} closeProposals ?_ _ _ ?_ ?_ rfl rfl⟩
  · refine ⟨.inr nofun, .inr fun n hn => ?_, .inr fun n hn => ?_, .inr fun n hn => ?_, trivial⟩
    · cases hfirst.symm.trans hn
      decide
    · cases hsecond.symm.trans hn
      decide
    · cases hthird.symm.trans hn
      decide
  all_goals
    rw [hall]
    exact getElem_mem _

/-- A block follows after more than a weak subjectivity period, and then another block for
slot 321, whose root is deleted by then. -/
def oldProposal : List (ProposalCall Unit) :=
  [⟨(), 320, rootOf 0, by decide⟩, ⟨(), 321, rootOf 0, by decide⟩,
    ⟨(), 1728352, rootOf 0, by decide⟩, ⟨(), 321, rootOf 1, by decide⟩]

theorem oldProposal_accepted :
    ((run {} oldProposal).accepted.map fun p => (p.slot, p.signingRoot)) =
      [(320, rootOf 0), (321, rootOf 0), (1728352, rootOf 0),
        (321, rootOf 1)] ∧ rootOf 0 ≠ rootOf 1 := by
  decide +kernel

end Examples

end LightChain.KV
