import LightChain.Config.NetworkLookup

/-!
# The fork that a signing domain is computed with

The fork of an epoch is read from the schedule entry of the epoch and from the one before it. An
entry of the blob schedule is no fork: once the epoch has reached one after its hard fork, both
versions of the fork are those of this hard fork, and the domain of an epoch before it has the wrong
version.
-/
namespace LightChain.Config
open Epoch List

structure Fork (V : Type) where
  previousVersion : V
  currentVersion : V
  epoch : Nat
deriving DecidableEq, Repr

section Model

variable {V D : Type} [DecidableEq V] [DecidableEq D] (dg : DigestScheme V D) (b : ForkConfig V)

def forkFromConfig (ns : NetworkSchedule V D) (epoch : Nat) : Fork V :=
  let current := getNetworkScheduleEntry dg b ns epoch
  let previous :=
    if 0 < current.epoch then getNetworkScheduleEntry dg b ns (current.epoch - 1) else current
  ⟨previous.forkVersion, current.forkVersion, current.epoch⟩

/-- The domain is computed from a version; a version has four bytes. -/
def domain {B : Type} (computeDomain : V → Except String B) (fork : Option (Fork V)) (epoch : Nat) :
    Except String B :=
  match fork with
  | none => .error "nil fork or domain type"
  | some fork =>
    computeDomain (if epoch < fork.epoch then fork.previousVersion else fork.currentVersion)

/-- Every domain of the epoch is computed from this version. -/
def UsesVersion (fork : Fork V) (epoch : Nat) (v : V) : Prop :=
  ∀ (B : Type) (computeDomain : V → Except String B),
    domain computeDomain (some fork) epoch = computeDomain v

end Model

variable {V D : Type} {dg : DigestScheme V D} {b : ForkConfig V} {epoch epoch' : Nat}
variable {fork fork' x y : NetworkScheduleEntry V D}

theorem usesVersion_iff {f : Fork V} {v : V} :
    UsesVersion f epoch v ↔ (if epoch < f.epoch then f.previousVersion else f.currentVersion) = v :=
  ⟨fun h => Except.ok.inj (h V .ok), fun h _ compute => congrArg compute h⟩

theorem reached_iff : reached epoch x = true ↔ x.epoch ≤ epoch ∧ x.epoch ≠ farFutureEpoch := by
  simp [reached]

theorem le_of_activeFork (h : Ordered dg b) (hactive : activeFork dg b epoch = some fork) :
    fork ∈ initForkSchedule dg b ∧ reached epoch fork = true ∧
      ∀ x ∈ initForkSchedule dg b, reached epoch x = true → x.epoch ≤ fork.epoch := by
  obtain ⟨hne, hlast⟩ := mem_getLast?_eq_getLast hactive
  obtain ⟨hfork, hreached⟩ := mem_filter.1 (hlast ▸ getLast_mem hne)
  refine ⟨hfork, hreached, fun x hx hle => ?_⟩
  rw [hlast]
  exact (h.forks_ordered.filter _).rel_getLast_of_rel_getLast_getLast
    (mem_filter.2 ⟨hx, hle⟩) le_rfl

theorem activeFork_congr (h : ∀ x ∈ initForkSchedule dg b, x.epoch ≠ farFutureEpoch →
      (x.epoch ≤ epoch ↔ x.epoch ≤ epoch')) :
    activeFork dg b epoch = activeFork dg b epoch' := by
  unfold activeFork
  refine congrArg List.getLast? (filter_congr fun x hx => ?_)
  rw [Bool.eq_iff_iff, reached_iff, reached_iff]
  exact and_congr_left (h x hx)

variable [DecidableEq V] [DecidableEq D]

theorem forkVersion_eq (h : Ordered dg b) (hactive : activeFork dg b epoch = some fork) :
    (getNetworkScheduleEntry dg b (initializeForkSchedule dg b) epoch).forkVersion =
      fork.forkVersion := by
  obtain ⟨x, f, hfind, hf, hversion, -⟩ := exists_entry h epoch
  rw [getNetworkScheduleEntry, hfind, Option.getD_some, hversion,
    Option.some.inj (hf.symm.trans hactive)]

/-- The entry of an epoch stands at the latest epoch of the schedule that is reached. -/
theorem entry_epoch (h : Ordered dg b) (hget : getNetworkScheduleEntry dg b
      (initializeForkSchedule dg b) epoch = x) :
    (∃ y ∈ merged dg b, reached epoch y = true ∧ y.epoch = x.epoch) ∧
      ∀ y ∈ merged dg b, reached epoch y = true → y.epoch ≤ x.epoch := by
  obtain ⟨rest, hrest, hentries, -⟩ := initializeForkSchedule_eq h
  obtain ⟨z, -, hfind, -⟩ := exists_entry h epoch
  obtain rfl : z = x := by rw [← hget, getNetworkScheduleEntry, hfind, Option.getD_some]
  obtain ⟨hle, after, before, hsplit, hafter⟩ := find?_eq_some_iff_append.1 hfind
  -- the pass keeps the epochs of the merged schedule
  have hepochs : (scheduled dg b).map (·.epoch) =
      (before.reverse ++ z :: after.reverse).map (·.epoch) := by
    have hreverse : (initializeForkSchedule dg b).entries = before.reverse ++ z :: after.reverse := by
      simpa using congrArg List.reverse hsplit
    rw [← hreverse, hrest, hentries, made, map_cons, map_cons, carryAll_epoch]
    rfl
  have hsorted : (scheduled dg b).Pairwise fun x y => x.epoch ≤ y.epoch :=
    (merged_sorted.filter _).imp NotAfter.epoch_le
  rw [← pairwise_map, hepochs, pairwise_map] at hsorted
  have hmem : ∀ n, (∃ y ∈ merged dg b, y.epoch ≠ farFutureEpoch ∧ y.epoch = n) ↔
      ∃ y ∈ before.reverse ++ z :: after.reverse, y.epoch = n := fun n => by
    rw [← mem_map, ← hepochs]
    simp [scheduled, and_assoc]
  refine ⟨?_, fun y hy hreached => ?_⟩
  · obtain ⟨y, hy, hset, heq⟩ := (hmem z.epoch).2 ⟨z, by simp, rfl⟩
    exact ⟨y, hy, reached_iff.2 ⟨heq ▸ of_decide_eq_true hle, hset⟩, heq⟩
  · obtain ⟨hyle, hset⟩ := reached_iff.1 hreached
    obtain ⟨e, he, heq⟩ := (hmem y.epoch).1 ⟨y, hy, hset, rfl⟩
    rw [← heq] at hyle ⊢
    rcases mem_append.1 he with hbefore | hrest
    · exact (pairwise_append.1 hsorted).2.2 e hbefore z mem_cons_self
    · rcases mem_cons.1 hrest with rfl | hlate
      · exact le_rfl
      · exact absurd hyle (by simpa using hafter e (mem_reverse.1 hlate))

/-- The fork of an epoch gives an epoch of its last two hard forks the right version, unless the
hard forks differ and an entry of the blob schedule has come after the second one. -/
theorem usesVersion_forkFromConfig_iff (h : Ordered dg b) (hle : epoch' ≤ epoch)
    (hactive : activeFork dg b epoch = some fork) (hactive' : activeFork dg b epoch' = some fork')
    (hprevious : ∀ x ∈ initForkSchedule dg b, x.epoch < fork.epoch → x.epoch ≤ epoch') :
    UsesVersion (forkFromConfig dg b (initializeForkSchedule dg b) epoch) epoch'
        fork'.forkVersion ↔
      fork.forkVersion = fork'.forkVersion ∨ ∀ x ∈ b.blobSchedule,
        fork.epoch < x.epoch → x.epoch ≤ epoch → x.epoch = farFutureEpoch := by
  obtain ⟨hfork, hreached, hlatest⟩ := le_of_activeFork h hactive
  obtain ⟨cur, hcur⟩ : ∃ x, getNetworkScheduleEntry dg b (initializeForkSchedule dg b) epoch = x :=
    ⟨_, rfl⟩
  obtain ⟨⟨y, hy, hyreached, hyepoch⟩, hmax⟩ := entry_epoch h hcur
  have hforkMem : ∀ x ∈ initForkSchedule dg b, x ∈ merged dg b := fun x hx =>
    merged_perm.mem_iff.2 (mem_append_left _ hx)
  have hforkLe : fork.epoch ≤ cur.epoch := hmax fork (hforkMem fork hfork) hreached
  have hversion := forkVersion_eq h hactive
  rw [hcur] at hversion
  rw [usesVersion_iff, forkFromConfig, hcur]
  dsimp only
  by_cases hbefore : epoch' < cur.epoch
  · rw [if_pos hbefore, if_pos (by omega)]
    rcases hforkLe.eq_or_lt with heq | hlt
    · -- the entry is that of the hard fork itself
      have hsame : activeFork dg b (cur.epoch - 1) = some fork' := by
        rw [← hactive']
        exact activeFork_congr fun x hx _ => ⟨fun hx' => hprevious x hx (by omega), by omega⟩
      refine iff_of_true (forkVersion_eq h hsame) (.inr fun x hx hlt hle => ?_)
      by_contra hset
      have hlate := hmax (blobEntry dg x) (merged_perm.mem_iff.2 (mem_append_right _
        (mem_map_of_mem hx))) (reached_iff.2 ⟨hle, hset⟩)
      exact absurd (hlate.trans heq.ge) hlt.not_ge
    · -- the entry before it has the same hard fork
      obtain ⟨hyle, hyset⟩ := reached_iff.1 hyreached
      have hsame : activeFork dg b (cur.epoch - 1) = some fork := by
        rw [← hactive]
        refine activeFork_congr fun x hx hset => ⟨by omega, fun hx' => ?_⟩
        have := hlatest x hx (reached_iff.2 ⟨hx', hset⟩)
        omega
      rw [forkVersion_eq h hsame]
      refine (or_iff_left fun hnone => ?_).symm
      rcases mem_append.1 (merged_perm.mem_iff.1 hy) with hy | hy
      · have := hlatest y hy hyreached
        omega
      · obtain ⟨z, hz, rfl⟩ := mem_map.1 hy
        exact hyset (hnone z hz (hlt.trans_eq hyepoch.symm) hyle)
  · -- no hard fork lies between the two epochs
    have hsame : activeFork dg b epoch' = some fork := by
      rw [← hactive]
      refine activeFork_congr fun x hx hset => ⟨fun hx' => hx'.trans hle, fun hx' => ?_⟩
      have := hlatest x hx (reached_iff.2 ⟨hx', hset⟩)
      omega
    have heq : fork.forkVersion = fork'.forkVersion :=
      congrArg _ (Option.some.inj (hsame.symm.trans hactive'))
    rw [if_neg hbefore]
    exact iff_of_true (hversion.trans heq) (.inl heq)

theorem usesVersion_forkFromConfig_small :
    UsesVersion (forkFromConfig plainDigest (smallConfig 9 [⟨8, 12⟩])
      (initializeForkSchedule plainDigest (smallConfig 9 [⟨8, 12⟩])) 7) 5 15 := by
  have h : Ordered plainDigest (smallConfig 9 [⟨8, 12⟩]) := ⟨by decide, by decide, by decide⟩
  have hactive : activeFork plainDigest (smallConfig 9 [⟨8, 12⟩]) 5 =
    some (forkEntry plainDigest 4 15 .electra 9) := rfl
  exact (usesVersion_forkFromConfig_iff h (by decide) rfl hactive (by decide)).2 (by decide)

/-- Electra is active at epoch 5, but the entry at epoch 8 hides it. -/
theorem blob_entry_hides_fork :
    activeFork plainDigest (smallConfig 9 [⟨8, 12⟩]) 5 = some (forkEntry plainDigest 4 15 .electra 9) ∧
      activeFork plainDigest (smallConfig 9 [⟨8, 12⟩]) 9 = some (forkEntry plainDigest 6 16 .fulu) ∧
      ¬ UsesVersion (forkFromConfig plainDigest (smallConfig 9 [⟨8, 12⟩])
        (initializeForkSchedule plainDigest (smallConfig 9 [⟨8, 12⟩])) 9) 5 15 :=
  ⟨rfl, rfl, fun h => absurd (usesVersion_iff.1 h) (by decide)⟩

end LightChain.Config
