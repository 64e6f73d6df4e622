import LightChain.DataColumns.LazyStore

/-!
# What the availability check guarantees

The store only grows during a check, and every column that appears was verified. A column that has
to be verified is in the store after its batch or its peer's group was saved, or was found there
when the group was filtered; the columns of a failing group are all among the recorded failures,
because filtering in place keeps every column that is not stored in the array.
-/
namespace LightChain.DataColumns

open LightChain.Library List Function ColumnBisector

variable {Root Data Peer : Type} [DecidableEq Root]
variable {w : Surroundings Root Data Peer} {d d' d₁ d₂ d₃ : Disk Root Data}
  {c : RODataColumn Root Data} {cs : List (RODataColumn Root Data)}

def Disk.Has (d : Disk Root Data) (root : Root) (i : Nat) : Prop :=
  (d.columns (root, i)).isSome = true

/-- Columns stay, and each new one was verified. -/
structure Disk.Grows (w : Surroundings Root Data Peer) (d d' : Disk Root Data) : Prop where
  keeps : Extends d.columns d'.columns
  new : ∀ k c, d'.columns k = some c → d.columns k = some c ∨ w.verifier.accepts c = true

namespace Disk.Grows

omit [DecidableEq Root]

theorem refl (d : Disk Root Data) : d.Grows w d := ⟨.refl _, fun _ _ h => .inl h⟩

theorem trans (h₁ : d₁.Grows w d₂) (h₂ : d₂.Grows w d₃) : d₁.Grows w d₃ :=
  ⟨h₁.keeps.trans h₂.keeps, fun k c h => (h₂.new k c h).elim (h₁.new k c) .inr⟩

theorem has (h : d.Grows w d') {root : Root} {i : Nat} (hi : d.Has root i) : d'.Has root i :=
  h.keeps.isSome hi

end Disk.Grows

theorem Disk.grows_save (hcs : ∀ c ∈ cs, w.verifier.accepts c = true) {t : Nat} :
    d.Grows w ⟨d.columns.save cs, t⟩ :=
  ⟨extends_putAll d.columns cs, fun _ c h => (putAll_eq_some h).imp_right fun hc => hcs c hc.1⟩

theorem Disk.access_grows (w : Surroundings Root Data Peer) (d : Disk Root Data) :
    d.Grows w (d.access w) := grows_save (w.others_verified d.clock)

theorem Disk.verifyAndSave_spec (w : Surroundings Root Data Peer) (d : Disk Root Data)
    (cs : List (RODataColumn Root Data)) :
    d.Grows w (d.verifyAndSave w cs).2 ∧
      ((d.verifyAndSave w cs).1 = .ok () →
        ∀ c ∈ cs, (d.verifyAndSave w cs).2.Has c.root c.index) := by
  rw [verifyAndSave]
  by_cases hnil : cs = []
  · rw [if_pos hnil]
    exact ⟨.refl d, fun _ c hc => by simp [hnil] at hc⟩
  rw [if_neg hnil]
  cases hver : w.verifier.verify cs with
  | error e => exact ⟨.refl d, fun h => by cases h⟩
  | ok u =>
    have hacc := Verifier.verify_eq_ok.1 hver
    dsimp only [save]
    cases w.saves (d.access w).clock with
    | saved =>
      exact ⟨(d.access_grows w).trans (grows_save hacc), fun _ c hc => putAll_isSome hc _⟩
    | failed stored =>
      have hpart : ∀ c ∈ cs.filter stored, w.verifier.accepts c = true :=
        fun c hc => hacc c (mem_of_mem_filter hc)
      exact ⟨(d.access_grows w).trans (grows_save hpart), fun h => by cases h⟩

section Filter

variable [Zero Root]

theorem Disk.storedFlags_spec (w : Surroundings Root Data Peer)
    (cs : List (RODataColumn Root Data)) {lastRoot : Root} {sum : Nat → Bool} {d : Disk Root Data}
    (hsum : ∀ i, sum i = true → d.Has lastRoot i) :
    d.Grows w (storedFlags w cs lastRoot sum d).2 ∧
      ∀ p ∈ cs.zip (storedFlags w cs lastRoot sum d).1, p.2 = true →
        (storedFlags w cs lastRoot sum d).2.Has p.1.root p.1.index := by
  induction cs generalizing lastRoot sum d with
  | nil => exact ⟨.refl d, by simp⟩
  | cons c cs ih =>
    rw [storedFlags]
    set d' := if c.root ≠ lastRoot then d.access w else d with hd'
    set sum' := if c.root ≠ lastRoot then d'.columns.hasIndex c.root else sum with hsum'
    have hgrow : d.Grows w d' := by
      rw [hd']
      split_ifs
      · exact d.access_grows w
      · exact .refl d
    have hnew : ∀ i, sum' i = true → d'.Has c.root i := by
      intro i hi
      rw [hsum'] at hi
      split_ifs at hi with hroot
      · exact Columns.isSome_of_hasIndex hi
      · rw [not_not.1 hroot]
        exact hgrow.has (hsum i hi)
    obtain ⟨hrest, hflags⟩ := ih hnew
    refine ⟨hgrow.trans hrest, fun p hp hstored => ?_⟩
    rcases mem_cons.1 (zip_cons_cons ▸ hp) with rfl | hp
    · exact hrest.has (hnew _ hstored)
    · exact hflags p hp hstored

/-- Filtering in place drops only stored columns, and what it keeps is still in the array. -/
theorem Disk.columnsNotStored_spec (w : Surroundings Root Data Peer) (d : Disk Root Data)
    (cs : List (RODataColumn Root Data)) :
    d.Grows w (d.columnsNotStored w cs).2 ∧
      (∀ c ∈ cs, c ∈ (d.columnsNotStored w cs).1.1 ∨
        (d.columnsNotStored w cs).2.Has c.root c.index) ∧
      ∀ c ∈ (d.columnsNotStored w cs).1.1, c ∈ (d.columnsNotStored w cs).1.2 := by
  have hnone : ∀ i, (fun _ : Nat => false) i = true → d.Has (0 : Root) i := fun _ h => by cases h
  obtain ⟨hgrow, hflags⟩ := storedFlags_spec w cs hnone
  have hlen := length_storedFlags w cs 0 (fun _ => false) d
  rw [columnsNotStored]
  dsimp only
  set flags := (storedFlags w cs 0 (fun _ => false) d).1 with hf
  by_cases hall : flags.all (! ·) = true
  · rw [if_pos hall]
    exact ⟨hgrow, fun c hc => .inl hc, fun c hc => hc⟩
  rw [if_neg hall]
  have hshift := shiftDown_shifted Prod.snd (cs.zip flags)
  have hkept : ((shiftDown Prod.snd (cs.zip flags)).1.map Prod.fst).take
      (cs.length - (shiftDown Prod.snd (cs.zip flags)).2) =
      ((cs.zip flags).filter fun p => !p.2).map Prod.fst := by
    rw [← map_take, ← hshift.take_eq]
    congr 3
    simp [hlen]
  refine ⟨hgrow, fun c hc => ?_, fun c hc => mem_of_mem_take hc⟩
  obtain ⟨n, hn, rfl⟩ := getElem_of_mem hc
  have hmem : (cs[n], flags[n]) ∈ cs.zip flags := by
    rw [← getElem_zip]
    exact getElem_mem (by simpa [hlen] using hn)
  cases hstored : flags[n] with
  | true => exact .inr (hflags _ hmem hstored)
  | false =>
    rw [hkept]
    exact .inl (mem_map.2 ⟨_, mem_filter.2 ⟨hmem, by simp [hstored]⟩, rfl⟩)

end Filter

section Bisector

variable [DecidableEq Peer] {b : ColumnBisector Root Data Peer} {pid : Peer}

namespace ColumnBisector

/-- The column is recorded as failed, and the iteration will report an error. -/
def Failed (b : ColumnBisector Root Data Peer) (root : Root) (i : Nat) : Prop :=
  b.errs ≠ [] ∧ i ∈ b.failuresFor root

omit [DecidableEq Peer]

theorem mem_noted (cs : List (RODataColumn Root Data)) (failures : Root → Finset Nat)
    (root : Root) (i : Nat) :
    i ∈ cs.foldl (fun failures (c : RODataColumn Root Data) =>
        Function.update failures c.root (insert c.index (failures c.root))) failures root ↔
      i ∈ failures root ∨ ∃ c ∈ cs, c.root = root ∧ c.index = i := by
  induction cs generalizing failures with
  | nil => simp
  | cons c cs ih =>
    rw [foldl_cons, ih]
    by_cases hroot : root = c.root
    · subst hroot
      simp only [update_self, Finset.mem_insert, mem_cons]
      grind
    · rw [update_of_ne hroot]
      simp only [mem_cons]
      grind

theorem Failed.onError {root : Root} {i : Nat} (h : b.Failed root i) (e : DataError Root) :
    (b.onError pid e).Failed root i :=
  ⟨by simp [ColumnBisector.onError], (mem_noted _ _ root i).2 (.inl h.2)⟩

theorem failed_onError (hc : c ∈ b.bisected pid) (e : DataError Root) :
    (b.onError pid e).Failed c.root c.index :=
  ⟨by simp [onError], (mem_noted _ _ c.root c.index).2 (.inr ⟨c, hc, rfl, rfl⟩)⟩

omit [DecidableEq Root] in
variable [DecidableEq Peer] in
theorem mem_assign {p : Peer} (hc : c ∈ b.bisected p) (c' : RODataColumn Root Data) :
    c ∈ (b.assign pid c').bisected p := by
  by_cases hp : p = pid
  · subst hp
    simp [assign, hc]
  · simpa [assign, update_of_ne hp] using hc

variable [DecidableEq Peer]

omit [DecidableEq Root] in
theorem mem_bisect {p : Peer} (hc : c ∈ b.bisected p) (cs : List (RODataColumn Root Data)) :
    c ∈ (b.bisect cs).2.bisected p := by
  induction cs generalizing b with
  | nil => exact hc
  | cons c' cs ih =>
    rw [bisect]
    split
    · exact hc
    · exact ih (mem_assign hc c')

omit [DecidableEq Root] in
/-- After a successful split every column is in the group of a peer that is visited. -/
theorem bisect_spec (hok : (b.bisect cs).1 = .ok ()) (hc : c ∈ cs) :
    ∃ p ∈ (b.bisect cs).2.pids, c ∈ (b.bisect cs).2.bisected p := by
  suffices h : ∃ p, c ∈ (b.bisect cs).2.bisected p by
    obtain ⟨p, hp⟩ := h
    exact ⟨p, (b.bisect cs).2.grouped p (ne_nil_of_mem hp), hp⟩
  induction cs generalizing b with
  | nil => cases hc
  | cons c' cs ih =>
    rw [bisect] at hok ⊢
    cases hpeer : b.peerFor c' with
    | error e =>
      rw [hpeer] at hok
      cases hok
    | ok p =>
      rw [hpeer] at hok
      rcases mem_cons.1 hc with rfl | hc
      · exact ⟨p, mem_bisect (by simp [assign]) cs⟩
      · exact ih hok hc

omit [DecidableEq Root] in
theorem bisect_error (b : ColumnBisector Root Data Peer) (cs : List (RODataColumn Root Data)) :
    (b.bisect cs).1 ≠ .error .columnVerification := by
  induction cs generalizing b with
  | nil => simp [bisect]
  | cons c cs ih =>
    rw [bisect, peerFor]
    split_ifs
    · simp
    · cases hpeer : (b.columnSource c.root).lookup c.index with
      | none => simp
      | some p => exact ih (b.assign p c)

end ColumnBisector

/-- The column is stored or recorded as failed. -/
def Settled (b : ColumnBisector Root Data Peer) (d : Disk Root Data) (root : Root) (i : Nat) :
    Prop := d.Has root i ∨ b.Failed root i

variable [Zero Root]

/-- One round: the group of the peer is settled, and what was settled stays so. -/
theorem bisectLoop_spec (pids : List Peer) (b : ColumnBisector Root Data Peer)
    (d : Disk Root Data) :
    d.Grows w (bisectLoop w pids b d).2 ∧
      (∀ root i, b.Failed root i → (bisectLoop w pids b d).1.Failed root i) ∧
      ∀ p ∈ pids, ∀ c ∈ b.bisected p,
        Settled (bisectLoop w pids b d).1 (bisectLoop w pids b d).2 c.root c.index := by
  induction pids generalizing b d with
  | nil => exact ⟨.refl d, fun _ _ h => h, by simp⟩
  | cons pid pids ih =>
    obtain ⟨hfilter, hdropped, harray⟩ := d.columnsNotStored_spec w (b.bisected pid)
    have hlen := Disk.length_columnsNotStored w d (b.bisected pid)
    rw [bisectLoop]
    set filtered := d.columnsNotStored w (b.bisected pid)
    set b₁ := b.regroup pid filtered.1.2 hlen with hb₁
    have hgroup : b₁.bisected pid = filtered.1.2 := by simp [hb₁, regroup]
    have hothers : ∀ p, p ≠ pid → b₁.bisected p = b.bisected p := fun p hp => by
      simp [hb₁, regroup, update_of_ne hp]
    obtain ⟨hsave, hsaved⟩ := filtered.2.verifyAndSave_spec w filtered.1.1
    generalize filtered.2.verifyAndSave w filtered.1.1 = saved at hsave hsaved ⊢
    obtain ⟨outcome, d₂⟩ := saved
    cases outcome with
    | ok u =>
      obtain ⟨hgrow, hkeep, hrest⟩ := ih b₁ d₂
      refine ⟨(hfilter.trans hsave).trans hgrow, fun root i h => hkeep root i h, ?_⟩
      intro p hp c hc
      by_cases hpid : p = pid
      · subst hpid
        have hhas : d₂.Has c.root c.index := (hdropped c hc).elim (hsaved rfl c) hsave.has
        exact .inl (hgrow.has hhas)
      · exact hrest p ((mem_cons.1 hp).resolve_left hpid) c (by rwa [hothers p hpid])
    | error e =>
      obtain ⟨hgrow, hkeep, hrest⟩ := ih (b₁.onError pid e) d₂
      refine ⟨(hfilter.trans hsave).trans hgrow,
        fun root i h => hkeep root i (ColumnBisector.Failed.onError (b := b₁) h e), ?_⟩
      intro p hp c hc
      by_cases hpid : p = pid
      · subst hpid
        rcases hdropped c hc with hkept | hstored
        · have hmem : c ∈ b₁.bisected p := hgroup ▸ harray c hkept
          exact .inr (hkeep _ _ (failed_onError hmem e))
        · exact .inl (hgrow.has (hsave.has hstored))
      · exact hrest p ((mem_cons.1 hp).resolve_left hpid) c
          (by rw [onError, hothers p hpid]; exact hc)

/-- After bisection every column is settled, and without an error it is stored. -/
theorem bisectVerification_spec (b : ColumnBisector Root Data Peer) (d : Disk Root Data)
    (cs : List (RODataColumn Root Data)) :
    d.Grows w (bisectVerification w b d cs).2.2 ∧
      ((bisectVerification w b d cs).1 = .ok () →
        ∀ c ∈ cs, (bisectVerification w b d cs).2.2.Has c.root c.index) ∧
      ((bisectVerification w b d cs).1 = .error .columnVerification → ∀ c ∈ cs,
        Settled (bisectVerification w b d cs).2.1 (bisectVerification w b d cs).2.2
          c.root c.index) := by
  rw [bisectVerification]
  by_cases hnil : cs = []
  · rw [if_pos hnil]
    exact ⟨.refl d, fun _ c hc => by simp [hnil] at hc, fun h => by cases h⟩
  rw [if_neg hnil]
  have hgroups : (b.bisect cs).1 = .ok () → ∀ c ∈ cs,
      ∃ p ∈ (b.bisect cs).2.pids, c ∈ (b.bisect cs).2.bisected p :=
    fun hok c hc => bisect_spec hok hc
  have hfails := b.bisect_error cs
  generalize b.bisect cs = split at hgroups hfails ⊢
  obtain ⟨outcome, b₁⟩ := split
  cases outcome with
  | error e => exact ⟨.refl d, nofun, fun h => absurd h hfails⟩
  | ok u =>
    obtain ⟨hgrow, -, hdone⟩ := bisectLoop_spec (w := w) (w.peerOrder b₁.pids) b₁ d
    have hsettled : ∀ c ∈ cs, Settled (bisectLoop w (w.peerOrder b₁.pids) b₁ d).1
        (bisectLoop w (w.peerOrder b₁.pids) b₁ d).2 c.root c.index := by
      intro c hc
      obtain ⟨p, hp, hmem⟩ := hgroups rfl c hc
      exact hdone p ((w.mem_peerOrder _ p).2 hp) c hmem
    refine ⟨hgrow, fun hok c hc => (hsettled c hc).resolve_right fun hfail => ?_,
      fun _ => hsettled⟩
    simp [error, hfail.1] at hok

end Bisector

section Collect

def Surroundings.Requires (w : Surroundings Root Data Peer) (b : ROBlock Root)
    (indices : Finset Nat) : Prop :=
  w.shouldRetain b.slot = true ∧ (∃ n, b.commitments = some (n + 1)) ∧ w.custody = some indices

omit [DecidableEq Root]

theorem Surroundings.Requires.required_eq {b : ROBlock Root} {indices : Finset Nat}
    (h : w.Requires b indices) : w.required b = .ok indices := by
  obtain ⟨hretain, ⟨n, hn⟩, hcustody⟩ := h
  simp [required, hretain, hn, hcustody]

variable {cache : DataColumnCache Root Data}

theorem DataColumnCache.append_eq_ok {key : CacheKey Root}
    {sidecars : List (RODataColumn Root Data)} {check take : List Nat}
    (h : cache.append key sidecars check take = .ok cs) :
    cs = sidecars ++ take.filterMap (cache.entries key) ∧
      ∀ i ∈ check, (cache.entries key i).isSome = true := by
  rw [append] at h
  cases hfind : check.find? fun i => (cache.entries key i).isNone with
  | some i =>
    rw [hfind] at h
    cases h
  | none =>
    rw [hfind] at h
    cases h
    refine ⟨rfl, fun i hi => ?_⟩
    simpa [Option.isSome_iff_ne_none] using find?_eq_none.1 hfind i hi

variable [DecidableEq Root] {blks : List (ROBlock Root)}

theorem toVerify_spec {cs cs' : List (RODataColumn Root Data)} {d : Disk Root Data}
    (hok : (toVerify w cache blks cs d).1 = .ok cs') :
    d.Grows w (toVerify w cache blks cs d).2 ∧ (∀ c ∈ cs, c ∈ cs') ∧
      ∀ b ∈ blks, ∀ indices, w.Requires b indices → ∀ i ∈ indices,
        (toVerify w cache blks cs d).2.Has b.root i ∨
          ∃ c ∈ cs', c.root = b.root ∧ c.index = i := by
  induction blks generalizing cs d with
  | nil =>
    cases hok
    exact ⟨.refl d, fun _ h => h, by simp⟩
  | cons b blks ih =>
    rw [toVerify] at hok ⊢
    cases hreq : w.required b with
    | error e =>
      rw [hreq] at hok
      cases hok
    | ok indices =>
      rw [hreq] at hok
      dsimp only at hok ⊢
      by_cases hempty : indices = ∅
      · rw [if_pos hempty] at hok ⊢
        obtain ⟨hgrow, hsub, hrest⟩ := ih hok
        refine ⟨hgrow, hsub, fun b' hb' needs hneeds i hi => ?_⟩
        rcases mem_cons.1 hb' with rfl | hb'
        · cases hreq.symm.trans hneeds.required_eq
          simp [hempty] at hi
        · exact hrest b' hb' needs hneeds i hi
      · rw [if_neg hempty] at hok ⊢
        set d₁ := d.access w
        set needed := indices.filter fun i => !d₁.columns.hasIndex b.root i with hneeded
        cases happend : cache.append ⟨b.slot, b.root⟩ cs (w.indexOrder (2 * d₁.clock) needed)
            (w.indexOrder (2 * d₁.clock + 1) needed) with
        | error e =>
          rw [happend] at hok
          cases hok
        | ok cs₁ =>
          rw [happend] at hok
          obtain ⟨rfl, hfull⟩ := DataColumnCache.append_eq_ok happend
          obtain ⟨hgrow, hsub, hrest⟩ := ih hok
          refine ⟨(d.access_grows w).trans hgrow,
            fun c hc => hsub c (mem_append_left _ hc), fun b' hb' needs hneeds i hi => ?_⟩
          rcases mem_cons.1 hb' with rfl | hb'
          · cases hreq.symm.trans hneeds.required_eq
            by_cases hstored : d₁.columns.hasIndex b'.root i = true
            · exact .inl (hgrow.has (Columns.isSome_of_hasIndex hstored))
            · have hi' : i ∈ needed := Finset.mem_filter.2 ⟨hi, by simpa using hstored⟩
              obtain ⟨c, hc⟩ := Option.isSome_iff_exists.1
                (hfull i ((w.mem_indexOrder _ needed i).2 hi'))
              obtain ⟨-, hroot, hindex⟩ := cache.keyed _ i c hc
              have hmem : c ∈ (w.indexOrder (2 * d₁.clock + 1) needed).filterMap
                  (cache.entries ⟨b'.slot, b'.root⟩) :=
                mem_filterMap.2 ⟨i, (w.mem_indexOrder _ needed i).2 hi', hc⟩
              exact .inr ⟨c, hsub c (mem_append_right _ hmem), hroot, hindex⟩
          · exact hrest b' hb' needs hneeds i hi

theorem toVerify_error (w : Surroundings Root Data Peer) (cache : DataColumnCache Root Data)
    (blks : List (ROBlock Root)) (cs : List (RODataColumn Root Data)) (d : Disk Root Data) :
    (toVerify w cache blks cs d).1 ≠ .error .columnVerification := by
  induction blks generalizing cs d with
  | nil => simp [toVerify]
  | cons b blks ih =>
    rw [toVerify]
    have hreq : w.required b ≠ .error .columnVerification := by
      rw [Surroundings.required]
      grind
    cases hb : w.required b with
    | error e => simpa [hb] using hreq
    | ok indices =>
      dsimp only
      split_ifs
      · exact ih cs d
      · rw [DataColumnCache.append]
        split
        next e h =>
          split at h <;> cases h
          simp
        next cs' h => exact ih cs' _

/-- A block with commitments stops the collection when the custody columns are not known. -/
theorem toVerify_custody (hcustody : w.custody = none) {b : ROBlock Root} (hb : b ∈ blks)
    (hretain : w.shouldRetain b.slot = true) {n : Nat} (hn : b.commitments = some (n + 1))
    (cache : DataColumnCache Root Data) (cs : List (RODataColumn Root Data)) (d : Disk Root Data) :
    ∃ e, (toVerify w cache blks cs d).1 = .error e := by
  induction blks generalizing cs d with
  | nil => cases hb
  | cons b' blks ih =>
    rw [toVerify]
    rcases mem_cons.1 hb with rfl | hb
    · simp [Surroundings.required, hretain, hn, hcustody]
    · split
      next e h => exact ⟨e, rfl⟩
      next indices h =>
      split_ifs
      · exact ih hb cs d
      · dsimp only
        split
        next e h => exact ⟨e, rfl⟩
        next cs' h => exact ih hb cs' _

end Collect

section Check

variable [DecidableEq Peer] [Zero Root]

/-- When the check succeeds, the store has grown to hold every required column; when it reports
the bisection error, every required column is stored or recorded as failed. -/
theorem isDataAvailable_spec (s : LazyStore Root Data Peer) (blks : List (ROBlock Root)) :
    ((s.isDataAvailable w blks).1 = .ok () →
      s.disk.Grows w (s.isDataAvailable w blks).2.disk ∧
        ∀ b ∈ blks, ∀ indices, w.Requires b indices → ∀ i ∈ indices,
          (s.isDataAvailable w blks).2.disk.Has b.root i) ∧
      ((s.isDataAvailable w blks).1 = .error .columnVerification →
        ∀ b ∈ blks, ∀ indices, w.Requires b indices → ∀ i ∈ indices,
          Settled (s.isDataAvailable w blks).2.bisector (s.isDataAvailable w blks).2.disk
            b.root i) := by
  have hcollect := fun cs (h : (toVerify w s.cache blks [] s.disk).1 = .ok cs) => toVerify_spec h
  have herror := toVerify_error w s.cache blks [] s.disk
  rw [LazyStore.isDataAvailable]
  generalize toVerify w s.cache blks [] s.disk = collected at hcollect herror ⊢
  obtain ⟨outcome, d₁⟩ := collected
  cases outcome with
  | error e =>
    exact ⟨nofun, fun h => absurd (congrArg Except.error (Except.error.inj h)) herror⟩
  | ok cs =>
    obtain ⟨hgrow, -, hneeded⟩ := hcollect cs rfl
    obtain ⟨hsave, hsaved⟩ := d₁.verifyAndSave_spec w cs
    dsimp only at hgrow hneeded ⊢
    generalize d₁.verifyAndSave w cs = saved at hsave hsaved ⊢
    obtain ⟨outcome, d₂⟩ := saved
    cases outcome with
    | ok u =>
      refine ⟨fun _ => ⟨hgrow.trans hsave, fun b hb indices hreq i hi => ?_⟩, nofun⟩
      rcases hneeded b hb indices hreq i hi with hhas | ⟨c, hc, hroot, rfl⟩
      · exact hsave.has hhas
      · exact hroot ▸ hsaved rfl c hc
    | error e =>
      obtain ⟨hbisect, hstored, hsettled⟩ := bisectVerification_spec (w := w) s.bisector d₂ cs
      dsimp only at hsave ⊢
      generalize bisectVerification w s.bisector d₂ cs = bisected at hbisect hstored hsettled ⊢
      obtain ⟨outcome, b₃, d₃⟩ := bisected
      have hgrow' := (hgrow.trans hsave).trans hbisect
      cases outcome with
      | ok u =>
        refine ⟨fun _ => ⟨hgrow', fun b hb indices hreq i hi => ?_⟩, nofun⟩
        rcases hneeded b hb indices hreq i hi with hhas | ⟨c, hc, hroot, rfl⟩
        · exact (hsave.trans hbisect).has hhas
        · exact hroot ▸ hstored rfl c hc
      | error e =>
        refine ⟨nofun, fun herr b hb indices hreq i hi => ?_⟩
        rcases hneeded b hb indices hreq i hi with hhas | ⟨c, hc, hroot, rfl⟩
        · exact .inl ((hsave.trans hbisect).has hhas)
        · exact hroot ▸ hsettled herr c hc

theorem custody_of_isDataAvailable {s : LazyStore Root Data Peer} {blks : List (ROBlock Root)}
    (hok : (s.isDataAvailable w blks).1 = .ok ()) {b : ROBlock Root} (hb : b ∈ blks)
    (hretain : w.shouldRetain b.slot = true) {n : Nat} (hn : b.commitments = some (n + 1)) :
    ∃ indices, w.Requires b indices := by
  cases hcustody : w.custody with
  | some indices => exact ⟨indices, hretain, ⟨n, hn⟩, hcustody⟩
  | none =>
    obtain ⟨e, he⟩ := toVerify_custody hcustody hb hretain hn s.cache [] s.disk
    rw [LazyStore.isDataAvailable] at hok
    generalize toVerify w s.cache blks [] s.disk = collected at he hok
    obtain ⟨outcome, d₁⟩ := collected
    cases he
    cases hok

/-- For a store in any state that calls lead to: a check that succeeds leaves every custody column
of each retained block with commitments in the store, stored before or verified; after the
bisection error each of them that is not stored is recorded as failed. -/
theorem isDataAvailable_settles (columns : Columns Root Data)
    (calls : List (LazyStore.Call Root Data Peer)) (w : Surroundings Root Data Peer)
    (blks : List (ROBlock Root)) :
    let s := calls.foldl LazyStore.perform (.new columns)
    let checked := s.isDataAvailable w blks
    (checked.1 = .ok () → ∀ b ∈ blks, w.shouldRetain b.slot = true →
      (∃ n, b.commitments = some (n + 1)) → ∃ indices, w.custody = some indices ∧
        ∀ i ∈ indices, ∃ c, checked.2.disk.columns (b.root, i) = some c ∧
          (s.disk.columns (b.root, i) = some c ∨ w.verifier.accepts c = true)) ∧
    (checked.1 = .error .columnVerification → ∀ b ∈ blks, w.shouldRetain b.slot = true →
      (∃ n, b.commitments = some (n + 1)) → ∀ indices, w.custody = some indices →
        ∀ i ∈ indices, checked.2.disk.columns (b.root, i) = none →
          i ∈ checked.2.bisector.failuresFor b.root) := by
  intro s checked
  obtain ⟨hsucceeds, hfails⟩ := isDataAvailable_spec (w := w) s blks
  refine ⟨fun hok b hb hretain hn => ?_, fun herr b hb hretain hn indices hcustody i hi hnone => ?_⟩
  · obtain ⟨n, hn⟩ := hn
    obtain ⟨indices, hreq⟩ := custody_of_isDataAvailable hok hb hretain hn
    obtain ⟨hgrow, hhas⟩ := hsucceeds hok
    refine ⟨indices, hreq.2.2, fun i hi => ?_⟩
    obtain ⟨c, hc⟩ := Option.isSome_iff_exists.1 (hhas b hb indices hreq i hi)
    exact ⟨c, hc, hgrow.new _ c hc⟩
  · rcases hfails herr b hb indices ⟨hretain, hn, hcustody⟩ i hi with hhas | hfailed
    · rw [Disk.Has, hnone] at hhas
      cases hhas
    · exact hfailed.2

/-- One custody column, whose KZG proof is right exactly when its data is not `0`. -/
private def oneColumn : Surroundings Nat Nat Nat where
  shouldRetain _ := true
  custody := some {3}
  verifier := ⟨fun _ => true, fun _ => true, fun c => decide (c.data ≠ 0)⟩
  saves _ := .saved
  others _ := []
  others_verified _ c h := by cases h
  indexOrder _ s := s.sort
  mem_indexOrder _ s i := by simp
  peerOrder ps := ps
  mem_peerOrder _ _ := Iff.rfl

theorem isDataAvailable_settles_small :
    let calls (data : Nat) : List (LazyStore.Call Nat Nat Nat) :=
      [.addPeerColumns 9 [⟨1, 7, 3, data⟩], .persist [⟨1, 7, 3, data⟩]]
    let run (data : Nat) := (calls data).foldl LazyStore.perform (.new fun _ => none)
    let checked (data : Nat) := (run data).isDataAvailable oneColumn [⟨1, 7, some 1⟩]
    (∃ c, (checked 5).2.disk.columns (7, 3) = some c ∧
      ((run 5).disk.columns (7, 3) = some c ∨ oneColumn.verifier.accepts c = true)) ∧
    3 ∈ (checked 0).2.bisector.failuresFor 7 := by
  intro calls run checked
  have hgood := (isDataAvailable_settles (fun _ => none) (calls 5) oneColumn [⟨1, 7, some 1⟩]).1
    (by decide +kernel) ⟨1, 7, some 1⟩ (by simp) rfl ⟨0, rfl⟩
  have hbad := (isDataAvailable_settles (fun _ => none) (calls 0) oneColumn [⟨1, 7, some 1⟩]).2
    (by decide +kernel) ⟨1, 7, some 1⟩ (by simp) rfl ⟨0, rfl⟩ {3} rfl 3 (by simp)
    (by decide +kernel)
  obtain ⟨indices, hindices, hall⟩ := hgood
  cases hindices
  exact ⟨hall 3 (by simp), hbad⟩

end Check

end LightChain.DataColumns
