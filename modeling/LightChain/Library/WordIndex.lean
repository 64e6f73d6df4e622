import LightChain.Library.Bucket

/-!
# Word indexes

A relation between 64-bit words can be kept in a bucket: under each left word, the right
words related to it, packed one behind the other in the order in which they came. `Indexes`
says that a bucket holds a given list of pairs. Appending keeps it, a scan from the largest
left word down to a bound finds what a search of the whole list would find, and deleting the
left words below a bound deletes their pairs.
-/
namespace LightChain.Library
open List

abbrev Bucket := Std.TreeMap Bytes Bytes

def toWord (n : Nat) : Bytes := toBigEndian 8 n

/-- The first eight bytes as a number, and zero for a shorter value. -/
def ofWord (b : Bytes) : Nat := if b.length < 8 then 0 else ofBigEndian (b.take 8)

def unpack (v : Bytes) : List Nat := (chunks 8 v).map ofWord

def pack (ns : List Nat) : Bytes := ns.flatMap toWord

def append (b : Bucket) (left right : Nat) : Bucket :=
  b.insert (toWord left) <| match b[toWord left]? with
    | some existing => existing ++ toWord right
    | none => toWord right

/-- Walk from the largest left word down to `bound` and return the first hit. -/
def scan {ε : Type*} (b : Bucket) (bound : Nat) (hit : Nat → Nat → Option ε) : Option ε :=
  scanBack (fun k => ofWord k ≤ bound) (fun k v => (unpack v).findSome? (hit (ofWord k)))
    b.toList.reverse

@[simp] theorem length_toWord (n : Nat) : (toWord n).length = 8 := length_toBigEndian 8 n

theorem ofWord_toWord {n : Nat} (hn : n < 2 ^ 64) : ofWord (toWord n) = n := by
  rw [ofWord, if_neg (by simp), take_of_length_le (by simp)]
  exact ofBigEndian_toBigEndian hn

theorem toWord_inj {m n : Nat} (hm : m < 2 ^ 64) (hn : n < 2 ^ 64) :
    toWord m = toWord n ↔ m = n := toBigEndian_inj hm hn

theorem compare_toWord {m n : Nat} (hm : m < 2 ^ 64) (hn : n < 2 ^ 64) :
    compare (toWord m) (toWord n) = compare m n := compare_toBigEndian hm hn

@[simp] theorem length_pack (ns : List Nat) : (pack ns).length = 8 * ns.length := by
  induction ns with
  | nil => rfl
  | cons n ns ih => simp [pack] at ih ⊢; omega

theorem pack_append (ns : List Nat) (n : Nat) : pack (ns ++ [n]) = pack ns ++ toWord n := by
  simp [pack]

theorem unpack_pack {ns : List Nat} (h : ∀ n ∈ ns, n < 2 ^ 64) : unpack (pack ns) = ns := by
  induction ns using List.reverseRecOn with
  | nil => rfl
  | append_singleton ns n ih =>
    have hn : n < 2 ^ 64 := h n (by simp)
    have hns := ih fun m hm => h m (by simp [hm])
    rw [pack_append, unpack, chunks_append (by decide) (by simp) (by simp), map_append]
    simp only [unpack] at hns
    simp [hns, ofWord_toWord hn]

theorem hit_of_scan {ε : Type*} {b : Bucket} {bound : Nat} {hit : Nat → Nat → Option ε} {x : ε}
    (h : scan b bound hit = some x) : ∃ left right, hit left right = some x := by
  obtain ⟨e, -, he⟩ := scanBack_eq_some h
  obtain ⟨right, -, hr⟩ := exists_of_findSome?_eq_some he
  exact ⟨_, right, hr⟩

section Indexes

variable {b : Bucket} {pairs : List (Nat × Nat)}

def rights (pairs : List (Nat × Nat)) (left : Nat) : List Nat :=
  (pairs.filter (fun p => p.1 = left)).map Prod.snd

theorem mem_rights {left right : Nat} : right ∈ rights pairs left ↔ (left, right) ∈ pairs := by
  simp [rights]

theorem rights_append (left right n : Nat) :
    rights (pairs ++ [(left, right)]) n =
      if n = left then rights pairs n ++ [right] else rights pairs n := by
  grind [rights]

/-- The bucket holds exactly the given pairs of 64-bit words. -/
structure Indexes (b : Bucket) (pairs : List (Nat × Nat)) : Prop where
  left_lt : ∀ p ∈ pairs, p.1 < 2 ^ 64
  right_lt : ∀ p ∈ pairs, p.2 < 2 ^ 64
  get : ∀ k v, b[k]? = some v ↔
    ∃ left < 2 ^ 64, k = toWord left ∧ rights pairs left ≠ [] ∧ v = pack (rights pairs left)

theorem Indexes.empty : Indexes ∅ [] :=
  ⟨by simp, by simp, by simp [rights]⟩

theorem Indexes.eq_nil_of_empty (h : Indexes ∅ pairs) : pairs = [] := by
  rw [eq_nil_iff_forall_not_mem]
  intro p hp
  have hne : rights pairs p.1 ≠ [] := ne_nil_of_mem (mem_rights.2 hp)
  simpa using (h.get _ _).2 ⟨p.1, h.left_lt p hp, rfl, hne, rfl⟩

section

variable (h : Indexes b pairs)

include h

theorem Indexes.get_toWord {left : Nat} (hl : left < 2 ^ 64) :
    b[toWord left]? =
      if rights pairs left = [] then none else some (pack (rights pairs left)) := by
  split_ifs with hr
  · rw [Option.eq_none_iff_forall_ne_some]
    intro v hv
    obtain ⟨left', hl', hk, hne, -⟩ := (h.get _ _).1 hv
    exact hne ((toWord_inj hl hl').1 hk ▸ hr)
  · exact (h.get _ _).2 ⟨left, hl, rfl, hr, rfl⟩

theorem Indexes.append {left right : Nat} (hl : left < 2 ^ 64) (hr : right < 2 ^ 64) :
    Indexes (append b left right) (pairs ++ [(left, right)]) := by
  have hvalue : (match b[toWord left]? with
      | some existing => existing ++ toWord right
      | none => toWord right) = pack (rights pairs left ++ [right]) := by
    rw [h.get_toWord hl, pack_append]
    split_ifs with hnil
    · simp [hnil, pack]
    · rfl
  refine ⟨?_, ?_, fun k v => ?_⟩
  · exact forall_mem_append.2 ⟨h.left_lt, forall_mem_singleton.2 hl⟩
  · exact forall_mem_append.2 ⟨h.right_lt, forall_mem_singleton.2 hr⟩
  · rw [Library.append, hvalue, Std.TreeMap.getElem?_insert]
    by_cases hk : toWord left = k
    · subst hk
      simp only [Std.ReflCmp.compare_self, if_true, Option.some.injEq]
      constructor
      · rintro rfl
        exact ⟨left, hl, rfl, by simp [rights_append], by simp [rights_append]⟩
      · rintro ⟨left', hl', hw, -, rfl⟩
        simp [(toWord_inj hl hl').1 hw, rights_append]
    · have hcmp : compare (toWord left) k ≠ .eq := fun he =>
        hk (Std.LawfulEqCmp.compare_eq_iff_eq.1 he)
      rw [if_neg hcmp, h.get]
      refine exists_congr fun left' => and_congr_right fun hl' => and_congr_right fun hw => ?_
      rw [rights_append, if_neg]
      rintro rfl
      exact hk hw.symm

theorem Indexes.unpack_rights (left : Nat) :
    unpack (pack (rights pairs left)) = rights pairs left :=
  unpack_pack fun _ hn => h.right_lt _ (mem_rights.1 hn)

theorem Indexes.scan_eq_none {ε : Type*} (bound : Nat) (hit : Nat → Nat → Option ε) :
    scan b bound hit = none ↔ ∀ p ∈ pairs, bound < p.1 → hit p.1 p.2 = none := by
  have hkeys : ∀ e ∈ b.toList.reverse, ∃ left < 2 ^ 64, e.1 = toWord left ∧
      rights pairs left ≠ [] ∧ e.2 = pack (rights pairs left) := by
    intro e he
    rw [mem_reverse] at he
    exact (h.get _ _).1 (Std.TreeMap.mem_toList_iff_getElem?_eq_some.1 he)
  -- Every key is a word, so that the byte order of the keys is the order of the numbers.
  have hsorted : b.toList.reverse.Pairwise fun e e' => ofWord e'.1 < ofWord e.1 := by
    refine (pairwise_reverse.2 Std.TreeMap.ordered_keys_toList).imp_of_mem ?_
    intro e e' he he' hlt
    obtain ⟨left, hl, hk, -⟩ := hkeys e he
    obtain ⟨left', hl', hk', -⟩ := hkeys e' he'
    rw [hk, hk', compare_toWord hl' hl, compare_lt_iff_lt] at hlt
    rwa [hk, hk', ofWord_toWord hl, ofWord_toWord hl']
  rw [scan, scanBack_eq_none (r := fun k' k => ofWord k' < ofWord k) (by simp; omega) hsorted]
  constructor
  · intro hnone p hp hbound
    have hne : rights pairs p.1 ≠ [] := ne_nil_of_mem (mem_rights.2 hp)
    have hget := (h.get _ _).2 ⟨p.1, h.left_lt p hp, rfl, hne, rfl⟩
    have hmem := mem_reverse.2 (Std.TreeMap.mem_toList_iff_getElem?_eq_some.2 hget)
    have hfind := hnone _ hmem (by simpa [ofWord_toWord (h.left_lt p hp)] using hbound)
    rw [h.unpack_rights, ofWord_toWord (h.left_lt p hp), findSome?_eq_none_iff] at hfind
    exact hfind p.2 (mem_rights.2 hp)
  · intro hnone e he hbound
    obtain ⟨left, hl, hk, -, hv⟩ := hkeys e he
    rw [hk, ofWord_toWord hl, decide_eq_false_iff_not, not_le] at hbound
    rw [hk, hv, ofWord_toWord hl, h.unpack_rights, findSome?_eq_none_iff]
    exact fun right hright => hnone _ (mem_rights.1 hright) hbound

theorem Indexes.mem_toList {p : Nat × Nat} :
    (∃ e ∈ b.toList, ∃ right ∈ unpack e.2, (ofWord e.1, right) = p) ↔ p ∈ pairs := by
  constructor
  · rintro ⟨e, he, right, hright, rfl⟩
    obtain ⟨left, hl, hk, -, hv⟩ :=
      (h.get _ _).1 (Std.TreeMap.mem_toList_iff_getElem?_eq_some.1 he)
    rw [hv, h.unpack_rights] at hright
    rw [hk, ofWord_toWord hl]
    exact mem_rights.1 hright
  · intro hp
    have hright := mem_rights.2 hp
    have hget := (h.get _ _).2 ⟨p.1, h.left_lt p hp, rfl, ne_nil_of_mem hright, rfl⟩
    refine ⟨_, Std.TreeMap.mem_toList_iff_getElem?_eq_some.2 hget, p.2, ?_, ?_⟩
    · rwa [h.unpack_rights]
    · rw [ofWord_toWord (h.left_lt p hp)]

end

end Indexes

section Erase

/-- Delete entries from the smallest key on, as long as `old` accepts the key. -/
def eraseWhile (b : Bucket) (old : Bytes → Bool) : Bucket :=
  (b.toList.takeWhile fun e => old e.1).foldl (fun b e => b.erase e.1) b

/-- The largest left word, and zero for an empty bucket. -/
def lastWord (b : Bucket) : Nat := ofWord ((b.toList.getLast?.map Prod.fst).getD [])

variable {b : Bucket} {old : Bytes → Bool}

theorem getElem?_foldl_erase (entries : List (Bytes × Bytes)) (k : Bytes) :
    (entries.foldl (fun b e => b.erase e.1) b)[k]? =
      if k ∈ entries.map Prod.fst then none else b[k]? := by
  induction entries generalizing b with
  | nil => simp
  | cons e entries ih =>
    have hcmp : compare e.1 k = .eq ↔ e.1 = k := Std.LawfulEqCmp.compare_eq_iff_eq
    simp only [foldl_cons, ih, Std.TreeMap.getElem?_erase, hcmp, map_cons,
      mem_cons]
    grind

/-- Whatever the order of the keys, an entry is only deleted if `old` accepts its key. -/
theorem getElem?_eraseWhile_cases (b : Bucket) (old : Bytes → Bool) (k : Bytes) :
    (eraseWhile b old)[k]? = b[k]? ∨ old k = true ∧ (eraseWhile b old)[k]? = none := by
  rw [eraseWhile, getElem?_foldl_erase]
  split_ifs with hmem
  · obtain ⟨e, he, rfl⟩ := mem_map.1 hmem
    exact .inr ⟨mem_takeWhile_imp (p := fun e : Bytes × Bytes => old e.1) he, rfl⟩
  · exact .inl rfl

theorem takeWhile_eq_filter {α : Type*} {p : α → Bool} {l : List α}
    (h : l.Pairwise fun x y => p y = true → p x = true) : l.takeWhile p = l.filter p := by
  induction l with
  | nil => rfl
  | cons x l ih =>
    obtain ⟨hx, hl⟩ := pairwise_cons.1 h
    cases hp : p x with
    | true => rw [takeWhile_cons_of_pos hp, filter_cons_of_pos hp, ih hl]
    | false =>
      rw [takeWhile_cons_of_neg (by simp [hp]), filter_cons_of_neg (by simp [hp]),
        filter_eq_nil_iff.2 fun y hy hpy => by simp [hx y hy hpy] at hp]

/-- If `old` accepts every key below a key that it accepts, all such entries are deleted. -/
theorem getElem?_eraseWhile
    (h : b.toList.Pairwise fun e e' => old e'.1 = true → old e.1 = true) (k : Bytes) :
    (eraseWhile b old)[k]? = if old k then none else b[k]? := by
  rw [eraseWhile, getElem?_foldl_erase, takeWhile_eq_filter h]
  by_cases hold : old k = true
  · rw [if_pos hold]
    split_ifs with hmem
    · rfl
    · rw [Option.eq_none_iff_forall_ne_some]
      intro v hv
      refine hmem (mem_map.2 ⟨(k, v), mem_filter.2 ⟨?_, hold⟩, rfl⟩)
      exact Std.TreeMap.mem_toList_iff_getElem?_eq_some.2 hv
  · rw [if_neg hold, if_neg]
    rintro hmem
    obtain ⟨e, he, rfl⟩ := mem_map.1 hmem
    exact hold (mem_filter.1 he).2

/-- Every key of the bucket is a word. -/
def WordKeys (b : Bucket) : Prop := ∀ k v, b[k]? = some v → ∃ left < 2 ^ 64, k = toWord left

theorem WordKeys.pairwise (h : WordKeys b) :
    b.toList.Pairwise fun e e' => ofWord e.1 < ofWord e'.1 := by
  refine Std.TreeMap.ordered_keys_toList.imp_of_mem fun {e e'} he he' hlt => ?_
  obtain ⟨left, hl, hk⟩ := h _ _ (Std.TreeMap.mem_toList_iff_getElem?_eq_some.1 he)
  obtain ⟨left', hl', hk'⟩ := h _ _ (Std.TreeMap.mem_toList_iff_getElem?_eq_some.1 he')
  rw [hk, hk', compare_toWord hl hl', compare_lt_iff_lt] at hlt
  rwa [hk, hk', ofWord_toWord hl, ofWord_toWord hl']

theorem WordKeys.getElem?_eraseWhile (h : WordKeys b) (bound : Nat) (k : Bytes) :
    (eraseWhile b fun k => ofWord k < bound)[k]? = if ofWord k < bound then none else b[k]? := by
  rw [Library.getElem?_eraseWhile (h.pairwise.imp fun hlt => by simp; omega)]
  simp

/-- The largest left word of a list of them, and zero if there is none. -/
def greatest (lefts : List Nat) : Nat := lefts.foldr max 0

variable {lefts : List Nat}

theorem le_greatest {left : Nat} (h : left ∈ lefts) : left ≤ greatest lefts := by
  induction lefts with
  | nil => cases h
  | cons x lefts ih =>
    have hcons : greatest (x :: lefts) = max x (greatest lefts) := rfl
    cases h with
    | head => omega
    | tail _ h => have := ih h; omega

theorem greatest_mem (h : lefts ≠ []) : greatest lefts ∈ lefts := by
  induction lefts with
  | nil => cases h rfl
  | cons x lefts ih =>
    have hcons : greatest (x :: lefts) = max x (greatest lefts) := rfl
    by_cases hl : lefts = []
    · subst hl
      simp [greatest]
    · rcases max_choice x (greatest lefts) with hx | hx
      · simp [hcons, hx]
      · rw [hcons, hx]
        exact mem_cons_of_mem _ (ih hl)

theorem WordKeys.lastWord_eq (h : WordKeys b)
    (hlefts : ∀ left < 2 ^ 64, left ∈ lefts ↔ (b[toWord left]?).isSome)
    (hlt : ∀ left ∈ lefts, left < 2 ^ 64) : lastWord b = greatest lefts := by
  cases hlast : b.toList.getLast? with
  | none =>
    have hempty : lefts = [] := by
      rw [eq_nil_iff_forall_not_mem]
      intro left hleft
      obtain ⟨v, hv⟩ := Option.isSome_iff_exists.1 ((hlefts left (hlt left hleft)).1 hleft)
      have hmem := Std.TreeMap.mem_toList_iff_getElem?_eq_some.2 hv
      rw [getLast?_eq_none_iff.1 hlast] at hmem
      cases hmem
    rw [lastWord, hlast, hempty]
    rfl
  | some e =>
    obtain ⟨front, hfront⟩ := getLast?_eq_some_iff.1 hlast
    have hget : b[e.1]? = some e.2 := Std.TreeMap.mem_toList_iff_getElem?_eq_some.1 (by
      rw [hfront]
      exact mem_append_right _ mem_cons_self)
    obtain ⟨left, hl, hk⟩ := h _ _ hget
    have hleft : left ∈ lefts := (hlefts left hl).2 (by rw [← hk, hget]; rfl)
    have hword : lastWord b = left := by
      rw [lastWord, hlast, Option.map_some, Option.getD_some, hk, ofWord_toWord hl]
    rw [hword]
    refine le_antisymm (le_greatest hleft) ?_
    -- The greatest left word is a key, and no key comes after the last one.
    have hmax := greatest_mem (ne_nil_of_mem hleft)
    have hmaxlt := hlt _ hmax
    obtain ⟨v, hv⟩ := Option.isSome_iff_exists.1 ((hlefts _ hmaxlt).1 hmax)
    have hmem := Std.TreeMap.mem_toList_iff_getElem?_eq_some.2 hv
    have hsorted := h.pairwise
    rw [hfront] at hmem hsorted
    obtain hmem | hmem := mem_append.1 hmem
    · have hlt' := (pairwise_append.1 hsorted).2.2 _ hmem e mem_cons_self
      rw [hk, ofWord_toWord hl, ofWord_toWord hmaxlt] at hlt'
      exact hlt'.le
    · cases mem_singleton.1 hmem
      exact ((toWord_inj hmaxlt hl).1 hk).le

variable {pairs : List (Nat × Nat)}

theorem Indexes.wordKeys (h : Indexes b pairs) : WordKeys b := fun k v hv => by
  obtain ⟨left, hl, hk, -⟩ := (h.get k v).1 hv
  exact ⟨left, hl, hk⟩

theorem Indexes.lastWord_eq (h : Indexes b pairs) :
    lastWord b = greatest (pairs.map Prod.fst) := by
  refine h.wordKeys.lastWord_eq (fun left hl => ?_) fun left hleft => ?_
  · rw [h.get_toWord hl]
    constructor
    · intro hleft
      obtain ⟨p, hp, rfl⟩ := mem_map.1 hleft
      rw [if_neg (ne_nil_of_mem (mem_rights.2 hp))]
      rfl
    · intro hsome
      split_ifs at hsome with hnil
      · cases hsome
      · obtain ⟨right, hright⟩ := exists_mem_of_ne_nil _ hnil
        exact mem_map.2 ⟨_, mem_rights.1 hright, rfl⟩
  · obtain ⟨p, hp, rfl⟩ := mem_map.1 hleft
    exact h.left_lt p hp

theorem Indexes.eraseWhile (h : Indexes b pairs) (bound : Nat) :
    Indexes (eraseWhile b fun k => ofWord k < bound) (pairs.filter fun p => bound ≤ p.1) := by
  refine ⟨fun p hp => h.left_lt p (mem_filter.1 hp).1,
    fun p hp => h.right_lt p (mem_filter.1 hp).1, fun k v => ?_⟩
  have hrights : ∀ left, rights (pairs.filter fun p => bound ≤ p.1) left =
      if left < bound then [] else rights pairs left := by
    intro left
    unfold rights
    rw [filter_filter]
    split_ifs with hlt
    · rw [filter_eq_nil_iff.2 fun p _ => by simp; omega]
      rfl
    · congr 1
      exact filter_congr fun p _ => by simp; omega
  rw [h.wordKeys.getElem?_eraseWhile]
  constructor
  · intro hv
    split_ifs at hv with hlt
    obtain ⟨left, hl, hk, hne, hv⟩ := (h.get k v).1 hv
    rw [hk, ofWord_toWord hl] at hlt
    exact ⟨left, hl, hk, by rwa [hrights, if_neg hlt], by rwa [hrights, if_neg hlt]⟩
  · rintro ⟨left, hl, hk, hne, hv⟩
    rw [hrights] at hne hv
    split_ifs at hne hv with hlt
    · exact absurd rfl hne
    · rw [hk, ofWord_toWord hl, if_neg hlt, ← hk]
      exact (h.get k v).2 ⟨left, hl, hk, hne, hv⟩

end Erase

end LightChain.Library
