import LightChain.Config.NetworkSchedule

/-!
# Looking up the network schedule

The entry of an epoch carries the version of the latest fork and the limit of the latest change of
the blob limit that the epoch has reached. A fork or change at the far future epoch is never
reached, and a fork whose blob limit is zero leaves the limit as it is.
-/
namespace LightChain.Config
open Epoch Library List NetworkSchedule

variable {V D : Type} {dg : DigestScheme V D} {b : ForkConfig V}

section Spec

variable (dg b)

def reached (epoch : Nat) (x : NetworkScheduleEntry V D) : Bool :=
  decide (x.epoch ≤ epoch) && decide (x.epoch ≠ farFutureEpoch)

/-- The latest fork that is reached. The forks are listed in their order. -/
def activeFork (epoch : Nat) : Option (NetworkScheduleEntry V D) :=
  ((initForkSchedule dg b).filter (reached epoch)).getLast?

def isChange (x : NetworkScheduleEntry V D) : Bool :=
  decide (0 < x.maxBlobsPerBlock ∨ x.isFork = false)

/-- The forks that set a blob limit and the entries of the blob schedule. -/
def blobChanges : List (NetworkScheduleEntry V D) :=
  (initForkSchedule dg b).filter isChange ++ b.blobSchedule.map (blobEntry dg)

/-- No other change that is reached comes after this one. -/
def LatestChange (epoch : Nat) (x : NetworkScheduleEntry V D) : Prop :=
  x ∈ blobChanges dg b ∧ reached epoch x = true ∧
    ∀ y ∈ blobChanges dg b, reached epoch y = true → y = x ∨ less y x = true

/-- Fork epochs do not decrease, blob schedule epochs are distinct, and the numbers have the width
of their types. The limits can be mixed into a digest. -/
structure Valid : Prop where
  forks_ordered : (initForkSchedule dg b).Pairwise fun x y => x.epoch ≤ y.epoch
  epochs_distinct : (b.blobSchedule.map BlobScheduleEntry.epoch).Nodup
  epoch_le : ∀ x ∈ initForkSchedule dg b ++ b.blobSchedule.map (blobEntry dg),
    x.epoch ≤ farFutureEpoch
  limit_le : ∀ x ∈ blobChanges dg b, x.maxBlobsPerBlock ≤ 2 ^ 32 - 1

/-- What of `Valid` the fork versions depend on. -/
structure Ordered : Prop where
  forks_ordered : (initForkSchedule dg b).Pairwise fun x y => x.epoch ≤ y.epoch
  epoch_le : ∀ x ∈ initForkSchedule dg b ++ b.blobSchedule.map (blobEntry dg),
    x.epoch ≤ farFutureEpoch
  limit_le : ∀ x ∈ blobChanges dg b, x.maxBlobsPerBlock ≤ 2 ^ 32 - 1

end Spec

theorem Valid.ordered (h : Valid dg b) : Ordered dg b := ⟨h.forks_ordered, h.epoch_le, h.limit_le⟩

section Order

variable {x y z : NetworkScheduleEntry V D}

def key (x : NetworkScheduleEntry V D) : ℕ ×ₗ ℕ :=
  toLex (x.epoch, if x.isFork then x.versionEnum.rank else 8)

theorem Version.rank_lt (v : Version) : v.rank < 8 := by
  cases v <;> decide

theorem less_iff : less x y = true ↔ key x < key y := by
  have hx := Version.rank_lt x.versionEnum
  have hy := Version.rank_lt y.versionEnum
  have hlt : x.versionEnum < y.versionEnum ↔ x.versionEnum.rank < y.versionEnum.rank := Iff.rfl
  unfold less key
  rw [Prod.Lex.toLex_lt_toLex]
  by_cases hepoch : x.epoch = y.epoch
  · cases hxf : x.isFork <;> cases hyf : y.isFork <;> simp [hepoch, hlt] <;> omega
  · simp [hepoch]

theorem notAfter_iff : NotAfter x y ↔ key x ≤ key y := by
  rw [NotAfter, ← Bool.not_eq_true, less_iff, not_lt]

instance : Std.Total (NotAfter (V := V) (D := D)) :=
  ⟨fun x y => by simpa only [notAfter_iff] using le_total (key x) (key y)⟩

instance : IsTrans _ (NotAfter (V := V) (D := D)) :=
  ⟨fun _ _ _ hxy hyz => notAfter_iff.2 ((notAfter_iff.1 hxy).trans (notAfter_iff.1 hyz))⟩

theorem NotAfter.epoch_le (h : NotAfter x y) : x.epoch ≤ y.epoch := by
  rcases Prod.Lex.toLex_le_toLex.1 (notAfter_iff.1 h) with h | h
  · exact h.le
  · exact h.1.le

end Order

section Carry

variable {x e : NetworkScheduleEntry V D} {s : Carried V D}
variable {rest xs : List (NetworkScheduleEntry V D)}

/-- The entry has the values that are carried. -/
structure Carries (s : Carried V D) (x : NetworkScheduleEntry V D) : Prop where
  version : x.forkVersion = s.lastFork.forkVersion
  enum : x.versionEnum = s.lastFork.versionEnum
  limit : x.maxBlobsPerBlock = (s.lastBlobs.map (·.maxBlobsPerBlock)).getD 0

section

variable (s : Carried V D)

theorem carry_lastFork (e : NetworkScheduleEntry V D) :
    (s.carry e).2.lastFork = if e.isFork then e else s.lastFork := by
  unfold Carried.carry
  dsimp only
  split_ifs <;> first | rfl | (split <;> rfl)

theorem carry_lastBlobs (e : NetworkScheduleEntry V D) :
    (s.carry e).2.lastBlobs.map (·.maxBlobsPerBlock) =
      if isChange e then some e.maxBlobsPerBlock
      else s.lastBlobs.map (·.maxBlobsPerBlock) := by
  unfold Carried.carry isChange
  cases hfork : e.isFork
  · simp
  · by_cases hlimit : 0 < e.maxBlobsPerBlock
    · simp [hlimit, hfork]
    · cases hblobs : s.lastBlobs <;> simp [hlimit, hfork]

theorem carry_epoch (e : NetworkScheduleEntry V D) : (s.carry e).1.epoch = e.epoch := by
  unfold Carried.carry
  dsimp only
  split_ifs <;> first | rfl | (split <;> rfl)

theorem carries_carry (e : NetworkScheduleEntry V D) : Carries (s.carry e).2 (s.carry e).1 := by
  unfold Carried.carry
  cases hfork : e.isFork
  · simp only [Bool.false_eq_true, if_false, or_true, if_true]
    exact ⟨rfl, rfl, rfl⟩
  · by_cases hlimit : 0 < e.maxBlobsPerBlock
    · simp only [hfork, hlimit, if_true, true_or]
      exact ⟨rfl, rfl, rfl⟩
    · have hzero : e.maxBlobsPerBlock = 0 := by omega
      cases hblobs : s.lastBlobs
      · exact ⟨by simp [hlimit, hfork], by simp [hlimit, hfork], by simp [hfork, hzero]⟩
      · exact ⟨by simp [hlimit, hfork], by simp [hlimit, hfork], by simp [hlimit, hfork]⟩

variable (dg b) in
/-- The digest of an entry whose limit can be mixed in. -/
def withDigest (e : NetworkScheduleEntry V D) : NetworkScheduleEntry V D :=
  { e with forkDigest :=
      if e.epoch < b.fuluForkEpoch then dg.forkDigest e.forkVersion
      else dg.mix (dg.forkDigest e.forkVersion) e.bpoEpoch e.maxBlobsPerBlock }

theorem entryWithForkDigest_eq (h : e.maxBlobsPerBlock ≤ 2 ^ 32 - 1) :
    entryWithForkDigest dg b e = .ok (withDigest dg b e) := by
  unfold entryWithForkDigest withDigest
  dsimp only
  rw [if_neg (Nat.not_lt.2 h)]
  split_ifs <;> rfl

variable (dg b) in
/-- The entries that the pass makes. -/
def carryAll : Carried V D → List (NetworkScheduleEntry V D) → List (NetworkScheduleEntry V D)
  | _, [] => []
  | s, e :: rest => withDigest dg b (s.carry e).1 :: carryAll (s.carry e).2 rest

theorem carryAll_epoch (rest : List (NetworkScheduleEntry V D)) :
    (carryAll dg b s rest).map (·.epoch) = rest.map (·.epoch) := by
  induction rest generalizing s with
  | nil => rfl
  | cons e rest ih =>
    rw [carryAll, map_cons, map_cons, ih]
    exact congrArg (· :: _) (carry_epoch s e)

/-- The limits that are set fit, so those that are carried do. -/
def LimitsFit (rest : List (NetworkScheduleEntry V D)) : Prop :=
  (s.lastBlobs.map (·.maxBlobsPerBlock)).getD 0 ≤ 2 ^ 32 - 1 ∧
    ∀ e ∈ rest, isChange e = true → e.maxBlobsPerBlock ≤ 2 ^ 32 - 1

end

theorem LimitsFit.carry (h : LimitsFit s (e :: rest)) :
    (s.carry e).1.maxBlobsPerBlock ≤ 2 ^ 32 - 1 ∧ LimitsFit (s.carry e).2 rest := by
  obtain ⟨hcarried, hrest⟩ := h
  obtain ⟨he, hrest⟩ := forall_mem_cons.1 hrest
  have hnext : ((s.carry e).2.lastBlobs.map (·.maxBlobsPerBlock)).getD 0 ≤ 2 ^ 32 - 1 := by
    rw [carry_lastBlobs]
    split_ifs with hchange
    · exact he hchange
    · exact hcarried
  exact ⟨(carries_carry s e).limit ▸ hnext, hnext, hrest⟩

variable [DecidableEq V] [DecidableEq D]

/-- An entry is appended and indexed. -/
def NetworkSchedule.add (ns : NetworkSchedule V D) (e : NetworkScheduleEntry V D) :
    NetworkSchedule V D := { ns with entries := ns.entries ++ [e] }.index e

theorem prepareLoop_eq (h : LimitsFit s rest) (ns : NetworkSchedule V D) :
    prepareLoop dg b s ns rest =
      ((carryAll dg b s rest).foldl add ns, none) := by
  induction rest generalizing s ns with
  | nil => rfl
  | cons e rest ih =>
    obtain ⟨hlimit, hrest⟩ := h.carry
    simp only [prepareLoop, entryWithForkDigest_eq hlimit, ih hrest, carryAll, foldl_cons,
      add]

theorem foldl_add (xs : List (NetworkScheduleEntry V D)) {ns : NetworkSchedule V D}
    (h : ns.byDigest = fun d => ns.entries.find? fun e => decide (e.forkDigest = d)) :
    (xs.foldl add ns).entries = ns.entries ++ xs ∧
      (xs.foldl add ns).byDigest =
        fun d => (ns.entries ++ xs).find? fun e => decide (e.forkDigest = d) := by
  induction xs generalizing ns with
  | nil => simpa using h
  | cons e xs ih =>
    have hadd : (ns.add e).byDigest =
        fun d => (ns.add e).entries.find? fun x => decide (x.forkDigest = d) := by
      funext d
      simp only [add, index, find?_append]
      by_cases hd : e.forkDigest = d
      · subst hd
        cases hfind : ns.entries.find? fun x => decide (x.forkDigest = e.forkDigest) with
        | none => simp [h, hfind]
        | some x => simp [h, hfind]
      · have hother : Function.update ns.byDigest e.forkDigest (some e) d =
            ns.entries.find? fun x => decide (x.forkDigest = d) := by
          rw [Function.update_of_ne (Ne.symm hd), h]
        split_ifs
        · simp [h, hd]
        · simp [hother, hd]
    obtain ⟨hentries, hdigest⟩ := ih hadd
    have happend : (ns.add e).entries ++ xs = ns.entries ++ e :: xs := by
      simp [add, index]
    exact ⟨hentries.trans happend, by rw [foldl_cons, hdigest, happend]⟩

variable (dg b) in
omit [DecidableEq V] [DecidableEq D] in
theorem find_carryAll {cur : NetworkScheduleEntry V D} {epoch : Nat} (hcur : Carries s cur)
    (hepoch : cur.epoch ≤ epoch) (hsorted : rest.Pairwise fun x y => x.epoch ≤ y.epoch) :
    ∃ x ∈ cur :: carryAll dg b s rest,
      (cur :: carryAll dg b s rest).reverse.find? (fun x => decide (x.epoch ≤ epoch)) = some x ∧
      Carries ((rest.filter fun x => decide (x.epoch ≤ epoch)).foldl
        (fun s e => (s.carry e).2) s) x := by
  induction rest generalizing cur s with
  | nil => exact ⟨cur, by simp [carryAll], by simp [carryAll, hepoch], by simpa using hcur⟩
  | cons e rest ih =>
    obtain ⟨hfirst, hrest⟩ := pairwise_cons.1 hsorted
    by_cases he : e.epoch ≤ epoch
    · have hnext : Carries (s.carry e).2 (withDigest dg b (s.carry e).1) := by
        obtain ⟨hversion, henum, hlimit⟩ := carries_carry s e
        exact ⟨hversion, henum, hlimit⟩
      have hnextEpoch : (withDigest dg b (s.carry e).1).epoch ≤ epoch :=
        (carry_epoch s e).le.trans he
      obtain ⟨x, hx, hfind, hcarries⟩ := ih hnext hnextEpoch hrest
      refine ⟨x, mem_cons_of_mem _ hx, ?_, by simpa [he] using hcarries⟩
      rw [reverse_cons, find?_append, carryAll, hfind]
      rfl
    · -- no entry from here on is reached
      have hlate : ∀ x ∈ e :: rest, ¬ x.epoch ≤ epoch :=
        forall_mem_cons.2 ⟨he, fun x hx hle => he ((hfirst x hx).trans hle)⟩
      have hnone : (carryAll dg b s (e :: rest)).reverse.find?
          (fun x => decide (x.epoch ≤ epoch)) = none := by
        refine find?_eq_none.2 fun x hx => ?_
        have hmem := mem_map_of_mem (f := fun x => x.epoch) (mem_reverse.1 hx)
        rw [carryAll_epoch] at hmem
        obtain ⟨y, hy, heq⟩ := mem_map.1 hmem
        simpa [← heq] using hlate y hy
      have hfilter : ((e :: rest).filter fun x => decide (x.epoch ≤ epoch)) = [] :=
        filter_eq_nil_iff.2 fun x hx => by simpa using hlate x hx
      refine ⟨cur, mem_cons_self, ?_, by rwa [hfilter]⟩
      rw [reverse_cons, find?_append, hnone]
      simp [hepoch]

omit [DecidableEq V] [DecidableEq D] in
/-- What is carried comes from the last fork and from the last change. -/
theorem foldl_carry (xs : List (NetworkScheduleEntry V D)) (s : Carried V D) :
    (xs.foldl (fun s e => (s.carry e).2) s).lastFork =
        ((xs.filter (·.isFork)).getLast?).getD s.lastFork ∧
      (xs.foldl (fun s e => (s.carry e).2) s).lastBlobs.map (·.maxBlobsPerBlock) =
        (((xs.filter isChange).getLast?).map (·.maxBlobsPerBlock)).or
          (s.lastBlobs.map (·.maxBlobsPerBlock)) := by
  induction xs using List.reverseRecOn with
  | nil => simp
  | append_singleton xs e ih =>
    rw [foldl_append, foldl_cons, foldl_nil, carry_lastFork, carry_lastBlobs, ih.1,
      ih.2, filter_append, filter_append]
    constructor
    · cases hfork : e.isFork <;> simp [hfork]
    · cases hchange : isChange e <;> simp [hchange]

end Carry

section Merged

variable (dg b) in
def merged : List (NetworkScheduleEntry V D) :=
  merge (initForkSchedule dg b) (initBPOSchedule dg b)

variable (dg b) in
def scheduled : List (NetworkScheduleEntry V D) :=
  (merged dg b).filter fun e => decide (e.epoch ≠ farFutureEpoch)

theorem merged_perm :
    (merged dg b).Perm (initForkSchedule dg b ++ b.blobSchedule.map (blobEntry dg)) := by
  refine (perm_insertionSort _ _).trans (Perm.append_left _ ?_)
  exact (perm_insertionSort _ _).map _

theorem merged_sorted : (merged dg b).Pairwise NotAfter := pairwise_insertionSort _ _

variable {x : NetworkScheduleEntry V D}

theorem isFork_of_mem_forks (hx : x ∈ initForkSchedule dg b) : x.isFork = true := by
  simp only [initForkSchedule, mem_cons, not_mem_nil, or_false] at hx
  rcases hx with rfl | rfl | rfl | rfl | rfl | rfl | rfl <;> rfl

theorem forks_sorted (h : Ordered dg b) : (initForkSchedule dg b).Pairwise NotAfter := by
  have hranks : (initForkSchedule dg b).Pairwise fun x y =>
      x.versionEnum.rank < y.versionEnum.rank := by
    simp [initForkSchedule, forkEntry, Version.rank]
  refine (h.forks_ordered.and hranks).imp_of_mem fun {x y} hx hy hxy => ?_
  rw [notAfter_iff, key, key, Prod.Lex.toLex_le_toLex, isFork_of_mem_forks hx,
    isFork_of_mem_forks hy]
  simp only [if_true]
  omega

theorem merged_forks (h : Ordered dg b) :
    (merged dg b).filter (·.isFork) = initForkSchedule dg b := by
  have hforks : (initForkSchedule dg b).filter (·.isFork) = initForkSchedule dg b :=
    filter_eq_self.2 fun x hx => isFork_of_mem_forks hx
  have hblobs : (b.blobSchedule.map (blobEntry dg)).filter (·.isFork) = [] :=
    filter_eq_nil_iff.2 (by simp [blobEntry])
  have hsub : (initForkSchedule dg b).Sublist (merged dg b) :=
    sublist_insertionSort (forks_sorted h) (sublist_append_left _ _)
  have hlength : ((merged dg b).filter (·.isFork)).length = (initForkSchedule dg b).length := by
    rw [(merged_perm.filter _).length_eq, filter_append, hforks, hblobs, append_nil]
  have hfilter := hsub.filter (·.isFork)
  rw [hforks] at hfilter
  exact (hfilter.eq_of_length hlength.symm).symm

theorem merged_changes : x ∈ (merged dg b).filter isChange ↔ x ∈ blobChanges dg b := by
  have hblobs : (b.blobSchedule.map (blobEntry dg)).filter isChange =
      b.blobSchedule.map (blobEntry dg) := filter_eq_self.2 (by simp [isChange, blobEntry])
  rw [(merged_perm.filter isChange).mem_iff, filter_append, hblobs, blobChanges]

theorem eq_of_key_fork {x y : NetworkScheduleEntry V D} (hx : x ∈ merged dg b)
    (hy : y ∈ initForkSchedule dg b) (hkey : key x = key y) : x = y := by
  have hranks : ((initForkSchedule dg b).map (·.versionEnum.rank)).Nodup := by
    simp [initForkSchedule, forkEntry, Version.rank]
  have hrank := (Prod.ext_iff.1 (toLex.injective hkey)).2
  simp only [isFork_of_mem_forks hy, if_true] at hrank
  rcases mem_append.1 (merged_perm.mem_iff.1 hx) with hx | hx
  · simp only [isFork_of_mem_forks hx, if_true] at hrank
    exact inj_on_of_nodup_map hranks hx hy hrank
  · obtain ⟨x, -, rfl⟩ := mem_map.1 hx
    have hlt := Version.rank_lt y.versionEnum
    simp only [blobEntry, Bool.false_eq_true, if_false] at hrank
    omega

theorem key_injective (h : Valid dg b) {x y : NetworkScheduleEntry V D} (hx : x ∈ merged dg b)
    (hy : y ∈ merged dg b) (hkey : key x = key y) : x = y := by
  rcases mem_append.1 (merged_perm.mem_iff.1 hy) with hfork | hblob
  · exact eq_of_key_fork hx hfork hkey
  rcases mem_append.1 (merged_perm.mem_iff.1 hx) with hfork | hblob'
  · exact (eq_of_key_fork hy hfork hkey.symm).symm
  · obtain ⟨y, hmem, rfl⟩ := mem_map.1 hblob
    obtain ⟨x, hmem', rfl⟩ := mem_map.1 hblob'
    have hepoch : x.epoch = y.epoch := (Prod.ext_iff.1 (toLex.injective hkey)).1
    rw [inj_on_of_nodup_map h.epochs_distinct hmem' hmem hepoch]

/-- Entries at the far future epoch come last. -/
theorem takeWhile_eq_filter {xs : List (NetworkScheduleEntry V D)} (hsorted : xs.Pairwise NotAfter)
    (hle : ∀ x ∈ xs, x.epoch ≤ farFutureEpoch) :
    xs.takeWhile (fun e => decide (e.epoch ≠ farFutureEpoch)) =
      xs.filter fun e => decide (e.epoch ≠ farFutureEpoch) := by
  induction xs with
  | nil => rfl
  | cons x xs ih =>
    obtain ⟨hx, hxs⟩ := pairwise_cons.1 hsorted
    obtain ⟨hxle, hle⟩ := forall_mem_cons.1 hle
    by_cases hfar : x.epoch = farFutureEpoch
    · have hnone : (xs.filter fun e => decide (e.epoch ≠ farFutureEpoch)) = [] := by
        refine filter_eq_nil_iff.2 fun y hy => ?_
        simpa using le_antisymm (hle y hy) (hfar ▸ (hx y hy).epoch_le)
      simpa [hfar] using hnone
    · simpa [hfar] using ih hxs hle

theorem merged_head : ∃ rest, merged dg b = genesisNetworkScheduleEntry dg b :: rest := by
  have hgenesis : genesisNetworkScheduleEntry dg b ∈ merged dg b := by
    rw [merged_perm.mem_iff]
    exact mem_append_left _ mem_cons_self
  cases hmerged : merged dg b with
  | nil => simp [hmerged] at hgenesis
  | cons x rest =>
    refine ⟨rest, congrArg (· :: rest) (eq_of_key_fork (by simp [hmerged]) mem_cons_self ?_)⟩
    have hsorted : (merged dg b).Pairwise NotAfter := merged_sorted
    rw [hmerged] at hsorted hgenesis
    rcases mem_cons.1 hgenesis with heq | hmem
    · rw [heq]
    · have hle := notAfter_iff.1 ((pairwise_cons.1 hsorted).1 _ hmem)
      have hzero : key (genesisNetworkScheduleEntry dg b) = toLex (0, 0) := rfl
      rw [hzero] at hle ⊢
      rcases Prod.Lex.toLex_le_toLex.1 hle with hlt | ⟨hepoch, hrank⟩
      · exact absurd hlt (Nat.not_lt_zero _)
      · exact congrArg toLex (Prod.ext hepoch (Nat.le_zero.1 hrank))

end Merged

section Latest

variable {rest : List (NetworkScheduleEntry V D)} {epoch : Nat}
variable (hrest : scheduled dg b = genesisNetworkScheduleEntry dg b :: rest)
include hrest

theorem filter_reached : (merged dg b).filter (reached epoch) = genesisNetworkScheduleEntry dg b ::
      rest.filter fun x => decide (x.epoch ≤ epoch) := by
  have hsplit : (merged dg b).filter (reached epoch) =
      (scheduled dg b).filter fun x => decide (x.epoch ≤ epoch) := by
    rw [scheduled, filter_filter]
    rfl
  rw [hsplit, hrest, filter_cons_of_pos]
  exact decide_eq_true (Nat.zero_le epoch)

theorem activeFork_eq (h : Ordered dg b) :
    activeFork dg b epoch =
      some ((((rest.filter fun x => decide (x.epoch ≤ epoch)).filter (·.isFork)).getLast?).getD
        (genesisNetworkScheduleEntry dg b)) := by
  have hfork : (genesisNetworkScheduleEntry dg b).isFork = true := rfl
  rw [activeFork, ← merged_forks h, filter_comm, filter_reached hrest, filter_cons_of_pos hfork,
    getLast?_cons]

theorem filter_changes : (rest.filter fun x => decide (x.epoch ≤ epoch)).filter isChange =
      ((merged dg b).filter isChange).filter (reached epoch) := by
  have hgenesis : isChange (genesisNetworkScheduleEntry dg b) = false := rfl
  rw [filter_comm _ isChange (merged dg b), filter_reached hrest,
    filter_cons_of_neg (by simp [hgenesis])]

omit hrest in
theorem latestChange_of_last (h : Valid dg b) {x : NetworkScheduleEntry V D}
    (hlast : (((merged dg b).filter isChange).filter (reached epoch)).getLast? = some x) :
    LatestChange dg b epoch x := by
  obtain ⟨hne, hlast⟩ := mem_getLast?_eq_getLast hlast
  have hmerged : (merged dg b).Pairwise NotAfter := merged_sorted
  have hsorted := (hmerged.filter isChange).filter (reached epoch)
  obtain ⟨hchange, hreached⟩ := mem_filter.1 (hlast ▸ getLast_mem hne)
  refine ⟨merged_changes.1 hchange, hreached, fun y hy hyreached => ?_⟩
  have hy := merged_changes.2 hy
  have hle := hsorted.rel_getLast_of_rel_getLast_getLast (mem_filter.2 ⟨hy, hyreached⟩)
    (notAfter_iff.2 le_rfl)
  rw [← hlast] at hle
  rcases (notAfter_iff.1 hle).lt_or_eq with hlt | heq
  · exact .inr (less_iff.2 hlt)
  · exact .inl (key_injective h (mem_of_mem_filter hy) (mem_of_mem_filter hchange) heq)

end Latest

section Main

variable [DecidableEq V] [DecidableEq D]

variable (dg b) in
def made (rest : List (NetworkScheduleEntry V D)) : List (NetworkScheduleEntry V D) :=
  withDigest dg b (genesisNetworkScheduleEntry dg b) ::
    carryAll dg b ⟨withDigest dg b (genesisNetworkScheduleEntry dg b), none⟩ rest

theorem initializeForkSchedule_eq (h : Ordered dg b) : ∃ rest,
    scheduled dg b = genesisNetworkScheduleEntry dg b :: rest ∧
      (initializeForkSchedule dg b).entries = made dg b rest ∧
      (initializeForkSchedule dg b).byDigest = fun d =>
        (initializeForkSchedule dg b).entries.find? fun e => decide (e.forkDigest = d) := by
  have hcut : (merged dg b).takeWhile _ = scheduled dg b :=
    takeWhile_eq_filter merged_sorted fun x hx => h.epoch_le x (merged_perm.mem_iff.1 hx)
  obtain ⟨rest, hrest⟩ : ∃ rest, scheduled dg b = genesisNetworkScheduleEntry dg b :: rest := by
    obtain ⟨rest, hmerged⟩ : ∃ rest, merged dg b = _ :: rest := merged_head
    have hset : genesisEpoch ≠ farFutureEpoch := by decide
    rw [scheduled, hmerged]
    exact ⟨_, filter_cons_of_pos (decide_eq_true hset)⟩
  refine ⟨rest, hrest, ?_⟩
  have hfit : LimitsFit ⟨withDigest dg b (genesisNetworkScheduleEntry dg b), none⟩ rest := by
    refine ⟨Nat.zero_le _, fun e he hchange => h.limit_le e (merged_changes.1 ?_)⟩
    have hmem : e ∈ scheduled dg b := hrest ▸ mem_cons_of_mem _ he
    exact mem_filter.2 ⟨mem_of_mem_filter hmem, hchange⟩
  have hdigest : entryWithForkDigest dg b (genesisNetworkScheduleEntry dg b) = .ok _ :=
    entryWithForkDigest_eq (by simp [genesisNetworkScheduleEntry, forkEntry])
  have hinit : initializeForkSchedule dg b =
      (made dg b rest).foldl add { entries := [] } := by
    have hfork : (genesisNetworkScheduleEntry dg b).isFork = true := rfl
    unfold initializeForkSchedule prepare
    rw [← merged, hcut, hrest]
    simp only [hfork, if_true, hdigest, prepareLoop_eq hfit]
    rfl
  rw [hinit]
  obtain ⟨hentries, hbyDigest⟩ := @foldl_add V D _ _ (made dg b rest) { entries := [] } rfl
  exact ⟨hentries, by rw [hbyDigest, hentries]⟩

theorem exists_entry (h : Ordered dg b) (epoch : Nat) : ∃ x fork,
    (initializeForkSchedule dg b).entries.reverse.find? (fun x => decide (x.epoch ≤ epoch)) =
        some x ∧
      activeFork dg b epoch = some fork ∧ x.forkVersion = fork.forkVersion ∧
      x.versionEnum = fork.versionEnum ∧
      x.maxBlobsPerBlock = (((((merged dg b).filter isChange).filter (reached epoch)).getLast?).map
        (·.maxBlobsPerBlock)).getD 0 := by
  obtain ⟨rest, hrest, hentries, -⟩ := initializeForkSchedule_eq h
  have hsorted : rest.Pairwise fun x y => x.epoch ≤ y.epoch := by
    have hmerged : (merged dg b).Pairwise NotAfter := merged_sorted
    have hpairs : (scheduled dg b).Pairwise NotAfter := hmerged.filter _
    rw [hrest] at hpairs
    exact (pairwise_cons.1 hpairs).2.imp NotAfter.epoch_le
  have hgenesis : Carries ⟨withDigest dg b (genesisNetworkScheduleEntry dg b), none⟩
      (withDigest dg b (genesisNetworkScheduleEntry dg b)) := ⟨rfl, rfl, rfl⟩
  obtain ⟨x, -, hfind, hversion, henum, hlimit⟩ :=
    find_carryAll dg b hgenesis (Nat.zero_le epoch) hsorted
  rw [← made, ← hentries] at hfind
  rw [(foldl_carry _ _).1] at hversion henum
  rw [(foldl_carry _ _).2, filter_changes hrest, Option.map_none, Option.or_none] at hlimit
  refine ⟨x, _, hfind, activeFork_eq hrest h, hversion.trans ?_, henum.trans ?_, hlimit⟩ <;>
    cases List.getLast? _ <;> rfl

/-- A digest that keeps everything that it is computed from. -/
def plainDigest : DigestScheme Nat (List Nat) where
  forkDigest v := [v]
  mix d epoch limit := d ++ [epoch, limit]
  zeroVersion := 0
  zeroDigest := []

/-- Deneb at epoch 2, Electra at epoch 4 and Fulu at epoch 6. -/
def smallConfig (electraLimit : Int) (blobSchedule : List BlobScheduleEntry) : ForkConfig Nat where
  genesisForkVersion := 10
  altairForkEpoch := 0
  altairForkVersion := 11
  bellatrixForkEpoch := 0
  bellatrixForkVersion := 12
  capellaForkEpoch := 1
  capellaForkVersion := 13
  denebForkEpoch := 2
  denebForkVersion := 14
  electraForkEpoch := 4
  electraForkVersion := 15
  fuluForkEpoch := 6
  fuluForkVersion := 16
  deprecatedMaxBlobsPerBlock := 6
  deprecatedMaxBlobsPerBlockElectra := electraLimit
  blobSchedule := blobSchedule

end Main

end LightChain.Config
