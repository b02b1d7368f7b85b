import Sdssd.Pblk.WritePath

/-!
# The read path of pblk

A read looks its sectors up, copies from the write buffer what is there and reads the rest from the
device, either straight to the bio or through pages that fill the holes. The position of the bio
moves along while sectors are copied, and the place of a sector depends on it.
-/

namespace Sdssd.Pblk

variable {δ : Type}

inductive NvmIo
  | ok
  | done
  | err
  deriving DecidableEq, Repr

/-- Where a sector of a read comes from. -/
inductive Fetched (δ : Type)
  | empty
  | cached (data : δ)
  | media (a : DevAddr)
  deriving DecidableEq, Repr

/-- The loop at `retry`: an entry that does not belong to the lba any more is looked up again. -/
def fetch (s : Ftl δ) (lba : Nat) : Nat → PpaAddr → Option (Fetched δ)
  | 0, _ => none
  | _ + 1, .empty => some .empty
  | _ + 1, .dev a => some (.media a)
  | n + 1, .cacheline pos =>
    match pblkRbCopyToBio s.rwb lba pos with
    | some d => some (.cached d)
    | none => fetch s lba n (s.map.transMap lba)

/-- A read request. The bio has one segment a sector, and `idx` is the segment it is at. -/
structure ReadRq (δ : Type) where
  pages : List δ
  idx : Nat
  bitmap : Nat → Bool
  ppas : List DevAddr
  advanced : Bool

/-- `pblk_rb_copy_to_bio` for the entry it found: only a bio at its first segment is advanced to the sector. -/
def ReadRq.copy (q : ReadRq δ) (i : Nat) (d : δ) : ReadRq δ :=
  let i := if q.idx = 0 then i else q.idx
  { q with pages := q.pages.set i d, idx := i }

/-- One round of `pblk_read_ppalist_rq`. A sector without an address leaves the bio where it is. -/
def ReadRq.add (q : ReadRq δ) (i : Nat) : Fetched δ → ReadRq δ
  | .empty => { q with bitmap := Function.update q.bitmap i true }
  | .cached d =>
    let q := q.copy i d
    { q with bitmap := Function.update q.bitmap i true, advanced := true, idx := q.idx + 1 }
  | .media a => { q with ppas := q.ppas ++ [a], idx := if q.advanced then q.idx + 1 else q.idx }

def pblkLookupL2pSeq (m : Map) (blba nrSecs : Nat) : List PpaAddr :=
  (List.range nrSecs).map fun i => m.transMap (blba + i)

/-- The loop of `pblk_read_ppalist_rq` from sector `i` on; `n` bounds the rounds of each `retry`. -/
def readSectors (s : Ftl δ) (n blba : Nat) : List PpaAddr → Nat → ReadRq δ → Option (ReadRq δ)
  | [], _, q => some q
  | p :: ps, i, q => (fetch s (blba + i) n p).bind fun f => readSectors s n blba ps (i + 1) (q.add i f)

/-- `pblk_read_ppalist_rq` with its `BUG_ON`. -/
def pblkReadPpalistRq (cfg : Config) (s : Ftl δ) (n blba nrSecs : Nat) (q : ReadRq δ) : Option (ReadRq δ) :=
  if blba + nrSecs < cfg.nrSecs then readSectors s n blba (pblkLookupL2pSeq s.map blba nrSecs) 0 q else none

/-- `pblk_read_rq`. -/
def pblkReadRq (cfg : Config) (s : Ftl δ) (n lba : Nat) (q : ReadRq δ) : Option (NvmIo × ReadRq δ) :=
  if lba < cfg.nrSecs then
    (fetch s lba n (s.map.transMap lba)).map fun f =>
      match f with
      | .empty => (.done,{ q with bitmap := Function.update q.bitmap 0 true })
      | .cached d => (.ok,{ q.copy 0 d with bitmap := Function.update q.bitmap 0 true })
      | .media a => (.ok,{ q with ppas := [a] })
  else none

/-- The loop of `pblk_fill_partial_read_bio` over what was read for the holes. -/
def fillHoles (bitmap : Nat → Bool) (init nrSecs : Nat) : List δ → Nat → List δ → List δ
  | [], _, pages => pages
  | d :: ds, hole, pages =>
    if hole < nrSecs then
      fillHoles bitmap init nrSecs ds (findNextZeroBit bitmap nrSecs (hole + 1)) (pages.set (init + hole) d)
    else pages

/-- The pages that the device writes to, from segment `k` on. -/
def readPages : List δ → Nat → List δ → List δ
  | [], _, pages => pages
  | d :: ds, k, pages => readPages ds (k + 1) (pages.set k d)

/-- `pblk_submit_read` of a bio at segment `init`, when no allocation fails; `dev` is what the device returns. -/
def pblkSubmitRead (cfg : Config) (s : Ftl δ) (dev : DevAddr → δ) (n blba nrSecs init : Nat) (pages : List δ) :
    Option (NvmIo × List δ) :=
  if maxReqAddrs < nrSecs then some (.err,pages)
  else
    let q : ReadRq δ := ⟨pages,init,fun _ => false,[],false⟩
    (if 1 < nrSecs then pblkReadPpalistRq cfg s n blba nrSecs q
      else (pblkReadRq cfg s n blba q).map Prod.snd).map fun q =>
      (.ok,if (List.range nrSecs).all q.bitmap then q.pages
        else if (List.range nrSecs).all fun i => !q.bitmap i then readPages (q.ppas.map dev) init q.pages
        else fillHoles q.bitmap init nrSecs (q.ppas.map dev) (findNextZeroBit q.bitmap nrSecs 0) q.pages)

/-! ## Where the sectors end up -/

namespace Fetched

def isEmpty : Fetched δ → Bool
  | .empty => true
  | _ => false

def isCached : Fetched δ → Bool
  | .cached _ => true
  | _ => false

def media? : Fetched δ → Option DevAddr
  | .media a => some a
  | _ => none

end Fetched

/-- How far the bio is behind: the sectors without an address since the first one that was copied. -/
def lag (fs : List (Fetched δ)) : Nat := (fs.dropWhile fun f => !f.isCached).countP Fetched.isEmpty

theorem lag_append {fs : List (Fetched δ)} {f : Fetched δ} :
    lag (fs ++ [f]) = if fs.any Fetched.isCached then lag fs + (if f.isEmpty then 1 else 0) else 0 := by
  unfold lag
  induction fs with
  | nil => cases f <;> rfl
  | cons g gs ih =>
    cases hg : g.isCached with
    | false => simp [hg,ih]
    | true =>
      simp only [List.cons_append,List.dropWhile_cons,List.any_cons,hg,Bool.not_true,Bool.false_eq_true,if_false,
        Bool.true_or,if_true]
      rw [← List.cons_append,List.countP_append,List.countP_singleton]

theorem lag_of_none_cached {fs : List (Fetched δ)} (h : fs.any Fetched.isCached = false) : lag fs = 0 := by
  unfold lag
  induction fs with
  | nil => rfl
  | cons g gs ih =>
    rw [List.any_cons,Bool.or_eq_false_iff] at h
    rw [List.dropWhile_cons,h.1]
    exact ih h.2

theorem lag_eq_zero {fs : List (Fetched δ)}
    (h : ∀ (i j : Nat) (d : δ), i < j → fs[i]? = some (.cached d) → fs[j]? ≠ some .empty) : lag fs = 0 := by
  unfold lag
  induction fs with
  | nil => rfl
  | cons g gs ih =>
    cases hg : g.isCached with
    | false =>
      simp only [List.dropWhile_cons,hg,Bool.not_false,if_true]
      exact ih fun i j d hij hi => h (i + 1) (j + 1) d (by omega) hi
    | true =>
      simp only [List.dropWhile_cons,hg,Bool.not_true,Bool.false_eq_true,if_false]
      rw [List.countP_eq_zero]
      intro f hf hempty
      cases f with
      | empty =>
        obtain ⟨d,rfl⟩ : ∃ d, g = .cached d := by
          cases g with
          | cached d => exact ⟨d,rfl⟩
          | empty => cases hg
          | media a => cases hg
        rcases List.mem_cons.mp hf with hf | hf
        · cases hf
        · obtain ⟨j,hj⟩ := List.getElem?_of_mem hf
          exact h 0 (j + 1) d (by omega) rfl hj
      | cached d => cases hempty
      | media a => cases hempty

/-- What a read has gathered from its first sectors. -/
structure Gathered (pages : List δ) (fs : List (Fetched δ)) (q : ReadRq δ) : Prop where
  bitmap : ∀ i, q.bitmap i = true ↔ ∃ f, fs[i]? = some f ∧ f.media? = none
  ppas : q.ppas = fs.filterMap Fetched.media?
  length : q.pages.length = pages.length
  copied : ∀ k d, fs[k]? = some (.cached d) → k < pages.length → q.pages[k - lag (fs.take k)]? = some d
  kept : ∀ i, (∀ k d, fs[k]? = some (.cached d) → i ≠ k - lag (fs.take k)) → q.pages[i]? = pages[i]?

/-- Where the bio is. -/
structure Positioned (fs : List (Fetched δ)) (q : ReadRq δ) : Prop where
  advanced : q.advanced = fs.any Fetched.isCached
  first : q.advanced = false → q.idx = 0
  later : q.advanced = true → 0 < q.idx ∧ q.idx + lag fs = fs.length
  below : ∀ k d, fs[k]? = some (.cached d) → k - lag (fs.take k) < q.idx

theorem getElem?_concat_eq_some {α : Type*} {xs : List α} {x y : α} {k : Nat} :
    (xs ++ [y])[k]? = some x ↔ xs[k]? = some x ∨ k = xs.length ∧ y = x := by
  rw [List.getElem?_append]
  split
  · constructor
    · exact Or.inl
    · rintro (h | ⟨rfl,-⟩)
      · exact h
      · omega
  · rename_i hge
    rw [List.getElem?_singleton]
    constructor
    · intro h
      split at h
      · exact Or.inr ⟨by omega,Option.some.inj h⟩
      · cases h
    · rintro (h | ⟨rfl,rfl⟩)
      · exact absurd (List.getElem?_eq_some_iff.mp h).1 hge
      · simp

theorem Positioned.place {fs : List (Fetched δ)} {q : ReadRq δ} (h : Positioned fs q) :
    (if q.idx = 0 then fs.length else q.idx) = fs.length - lag fs ∧ q.idx ≤ fs.length - lag fs := by
  cases hadv : q.advanced with
  | false =>
    have hlag := lag_of_none_cached (h.advanced.symm.trans hadv)
    rw [h.first hadv,hlag,if_pos rfl]
    omega
  | true =>
    obtain ⟨hpos,hidx⟩ := h.later hadv
    rw [if_neg (by omega)]
    omega

section Round

variable {pages : List δ} {fs : List (Fetched δ)} {q : ReadRq δ}

/-- A sector that is not copied leaves the pages. -/
theorem Gathered.skip (h : Gathered pages fs q) {f : Fetched δ} (hf : f.isCached = false) :
    (∀ k d, (fs ++ [f])[k]? = some (.cached d) → k < pages.length →
      q.pages[k - lag ((fs ++ [f]).take k)]? = some d) ∧
    ∀ i, (∀ k d, (fs ++ [f])[k]? = some (.cached d) → i ≠ k - lag ((fs ++ [f]).take k)) → q.pages[i]? = pages[i]? := by
  have hiff : ∀ (k : Nat) (d : δ), (fs ++ [f])[k]? = some (.cached d) ↔ fs[k]? = some (.cached d) := by
    intro k d
    rw [getElem?_concat_eq_some]
    constructor
    · rintro (hold | ⟨-,rfl⟩)
      · exact hold
      · cases hf
    · exact Or.inl
  have htake : ∀ (k : Nat) (d : δ), fs[k]? = some (.cached d) → (fs ++ [f]).take k = fs.take k := by
    intro k d hk
    exact List.take_append_of_le_length (Nat.le_of_lt (List.getElem?_eq_some_iff.mp hk).1)
  constructor
  · intro k d hk hlt
    have hold := (hiff k d).mp hk
    rw [htake k d hold]
    exact h.copied k d hold hlt
  · intro i hi
    apply h.kept i
    intro k d hk
    rw [← htake k d hk]
    exact hi k d ((hiff k d).mpr hk)

theorem Gathered.bitmap_concat (h : Gathered pages fs q) {f : Fetched δ} {bitmap : Nat → Bool}
    (hnew : bitmap = if f.media? = none then Function.update q.bitmap fs.length true else q.bitmap) (i : Nat) :
    bitmap i = true ↔ ∃ g, (fs ++ [f])[i]? = some g ∧ g.media? = none := by
  simp only [getElem?_concat_eq_some]
  subst hnew
  by_cases hi : i = fs.length
  · subst hi
    split
    · rename_i hf
      rw [Function.update_self]
      exact ⟨fun _ => ⟨f,Or.inr ⟨rfl,rfl⟩,hf⟩,fun _ => rfl⟩
    · rename_i hf
      rw [h.bitmap]
      simp [hf]
  · have hsame : (if f.media? = none then Function.update q.bitmap fs.length true else q.bitmap) i = q.bitmap i := by
      split
      · exact Function.update_of_ne hi ..
      · rfl
    rw [hsame,h.bitmap]
    simp [hi]

theorem Positioned.below_concat (h : Positioned fs q) {f : Fetched δ} {idx : Nat} (hle : q.idx ≤ idx)
    (hnew : f.isCached = true → fs.length - lag fs < idx) (k : Nat) (d : δ)
    (hk : (fs ++ [f])[k]? = some (.cached d)) : k - lag ((fs ++ [f]).take k) < idx := by
  rcases getElem?_concat_eq_some.mp hk with hold | ⟨rfl,rfl⟩
  · rw [List.take_append_of_le_length (Nat.le_of_lt (List.getElem?_eq_some_iff.mp hold).1)]
    exact Nat.lt_of_lt_of_le (h.below k d hold) hle
  · rw [List.take_left']
    · exact hnew rfl
    · rfl

/-- One round, for each kind of sector. -/
theorem Gathered.add (h : Gathered pages fs q) (hp : Positioned fs q) (f : Fetched δ) :
    Gathered pages (fs ++ [f]) (q.add fs.length f) ∧ Positioned (fs ++ [f]) (q.add fs.length f) := by
  have hlag : lag (fs ++ [f]) = _ := lag_append
  rw [← hp.advanced] at hlag
  have hany : (fs ++ [f]).any Fetched.isCached = (q.advanced || f.isCached) := by simp [hp.advanced]
  have hlen : (fs ++ [f]).length = fs.length + 1 := by simp
  cases f with
  | empty =>
    obtain ⟨hcopied,hkept⟩ := h.skip (f := .empty) rfl
    refine ⟨⟨h.bitmap_concat rfl,by simp [ReadRq.add,h.ppas,Fetched.media?],h.length,hcopied,hkept⟩,
      ⟨by simp [hany,ReadRq.add,Fetched.isCached],hp.first,?_,hp.below_concat (Nat.le_refl _) nofun⟩⟩
    intro hadv
    change q.advanced = true at hadv
    obtain ⟨hpos,hidx⟩ := hp.later hadv
    simp only [hadv,Fetched.isEmpty,if_true] at hlag
    refine ⟨hpos,?_⟩
    change q.idx + _ = _
    omega
  | media a =>
    obtain ⟨hcopied,hkept⟩ := h.skip (f := .media a) rfl
    refine ⟨⟨h.bitmap_concat rfl,by simp [ReadRq.add,h.ppas,Fetched.media?],h.length,hcopied,hkept⟩,
      ⟨by simp [hany,ReadRq.add,Fetched.isCached],?_,?_,hp.below_concat ?_ nofun⟩⟩
    · intro hadv
      change q.advanced = false at hadv
      simp only [ReadRq.add,hadv,Bool.false_eq_true,if_false]
      exact hp.first hadv
    · intro hadv
      change q.advanced = true at hadv
      obtain ⟨hpos,hidx⟩ := hp.later hadv
      simp only [hadv,Fetched.isEmpty,if_true,Bool.false_eq_true,if_false] at hlag
      simp only [ReadRq.add,hadv,if_true]
      omega
    · simp only [ReadRq.add]
      split <;> omega
  | cached d =>
    obtain ⟨hplace,hle⟩ := hp.place
    have hadd : q.add fs.length (.cached d) = ⟨q.pages.set (fs.length - lag fs) d,fs.length - lag fs + 1,
        Function.update q.bitmap fs.length true,q.ppas,true⟩ := by
      simp only [ReadRq.add,ReadRq.copy,hplace]
    have htake : (fs ++ [Fetched.cached d]).take fs.length = fs := List.take_left' rfl
    have hbound : lag fs ≤ fs.length := by
      cases hadv : q.advanced with
      | false =>
        rw [lag_of_none_cached (hp.advanced.symm.trans hadv)]
        exact Nat.zero_le _
      | true =>
        have := (hp.later hadv).2
        omega
    rw [hadd]
    refine ⟨⟨h.bitmap_concat rfl,by simp [h.ppas,Fetched.media?],by simp [h.length],?_,?_⟩,
      ⟨by simp [hany,Fetched.isCached],nofun,?_,hp.below_concat (Nat.le_succ_of_le hle) fun _ => Nat.lt_succ_self _⟩⟩
    · intro k e hk hlt
      rcases getElem?_concat_eq_some.mp hk with hold | ⟨rfl,heq⟩
      · -- the earlier sectors are below the bio
        have hbelow := hp.below k e hold
        rw [List.take_append_of_le_length (Nat.le_of_lt (List.getElem?_eq_some_iff.mp hold).1),
          List.getElem?_set_ne (by omega)]
        exact h.copied k e hold hlt
      · cases heq
        rw [htake,List.getElem?_set_self (by rw [h.length]; omega)]
    · intro i hi
      have hnew := hi fs.length d (getElem?_concat_eq_some.mpr (Or.inr ⟨rfl,rfl⟩))
      rw [htake] at hnew
      rw [List.getElem?_set_ne (Ne.symm hnew)]
      apply h.kept i
      intro k e hk
      have hsame : (fs ++ [Fetched.cached d]).take k = fs.take k :=
        List.take_append_of_le_length (Nat.le_of_lt (List.getElem?_eq_some_iff.mp hk).1)
      rw [← hsame]
      exact hi k e (getElem?_concat_eq_some.mpr (Or.inl hk))
    · intro _
      refine ⟨Nat.succ_pos _,?_⟩
      simp only [Fetched.isEmpty,Bool.false_eq_true,if_false,Nat.add_zero] at hlag
      have hzero : (if q.advanced = true then lag fs else 0) = lag fs := by
        split
        · rfl
        · rename_i hadv
          rw [lag_of_none_cached]
          rw [← hp.advanced]
          simpa using hadv
      rw [hlag,hzero,hlen]
      change fs.length - lag fs + 1 + lag fs = _
      omega

end Round

/-- The rounds from sector `i` on. -/
def ReadRq.addAll : ReadRq δ → Nat → List (Fetched δ) → ReadRq δ
  | q, _, [] => q
  | q, i, f :: fs => (q.add i f).addAll (i + 1) fs

theorem Gathered.addAll {pages : List δ} {pre fs : List (Fetched δ)} {q : ReadRq δ} (h : Gathered pages pre q)
    (hp : Positioned pre q) : Gathered pages (pre ++ fs) (q.addAll pre.length fs) := by
  induction fs generalizing pre q with
  | nil =>
    rw [List.append_nil]
    exact h
  | cons f fs ih =>
    obtain ⟨h',hp'⟩ := h.add hp f
    have hall := ih h' hp'
    rw [List.append_assoc,List.length_append,List.length_singleton] at hall
    exact hall

theorem Gathered.nil {pages : List δ} : Gathered pages [] ⟨pages,0,fun _ => false,[],false⟩ := by
  refine ⟨fun i => ?_,rfl,rfl,nofun,fun _ _ => rfl⟩
  constructor
  · nofun
  · rintro ⟨f,hf,-⟩
    cases hf

theorem Positioned.nil {pages : List δ} : Positioned [] ⟨pages,0,fun _ => false,[],false⟩ :=
  ⟨rfl,fun _ => rfl,nofun,nofun⟩

theorem readSectors_eq_some {s : Ftl δ} {n blba i : Nat} {ps : List PpaAddr} {q q' : ReadRq δ}
    (h : readSectors s n blba ps i q = some q') : ∃ fs : List (Fetched δ), fs.length = ps.length ∧
      (∀ (j : Nat) p f, ps[j]? = some p → fs[j]? = some f → fetch s (blba + (i + j)) n p = some f) ∧
      q' = q.addAll i fs := by
  induction ps generalizing i q with
  | nil => exact ⟨[],rfl,nofun,(Option.some.inj h).symm⟩
  | cons p ps ih =>
    obtain ⟨f,hf,hrest⟩ := Option.bind_eq_some_iff.mp h
    obtain ⟨fs,hlen,hfetch,rfl⟩ := ih hrest
    refine ⟨f :: fs,by simp [hlen],?_,rfl⟩
    intro j p' f' hp' hf'
    cases j with
    | zero =>
      cases hp'
      cases hf'
      exact hf
    | succ j =>
      have := hfetch j p' f' hp' hf'
      rwa [Nat.add_right_comm,Nat.add_assoc] at this

/-! ## The holes -/

theorem findNextZeroBit_of_clear {bm : Nat → Bool} {size start : Nat} (hlt : start < size) (hbit : bm start = false) :
    findNextZeroBit bm size start = start := by
  obtain ⟨k,hk⟩ : ∃ k, size - start = k + 1 := ⟨size - start - 1,by omega⟩
  simp [findNextZeroBit,hk,List.range'_succ,hbit]

theorem findNextZeroBit_of_set {bm : Nat → Bool} {size start : Nat} (hlt : start < size) (hbit : bm start = true) :
    findNextZeroBit bm size start = findNextZeroBit bm size (start + 1) := by
  obtain ⟨k,hk⟩ : ∃ k, size - start = k + 1 := ⟨size - start - 1,by omega⟩
  have hk' : size - (start + 1) = k := by omega
  simp [findNextZeroBit,hk,hk',List.range'_succ,hbit]

/-- The page of every sector on the device, and no other page, is overwritten. -/
structure DeviceFilled (dev : DevAddr → δ) (pages out : List δ) (i : Nat) (fs : List (Fetched δ)) : Prop where
  media : ∀ j a, fs[j]? = some (.media a) → out[i + j]? = some (dev a)
  kept : ∀ k, (∀ j a, fs[j]? = some (.media a) → k ≠ i + j) → out[k]? = pages[k]?

theorem DeviceFilled.skip {dev : DevAddr → δ} {pages out : List δ} {i : Nat} {f : Fetched δ} {fs : List (Fetched δ)}
    (h : DeviceFilled dev pages out (i + 1) fs) (hf : f.media? = none) : DeviceFilled dev pages out i (f :: fs) := by
  constructor
  · intro j a hj
    cases j with
    | zero =>
      cases hj
      cases hf
    | succ j =>
      rw [← h.media j a hj]
      congr 1
      omega
  · intro k hk
    apply h.kept k
    intro j a hj
    have := hk (j + 1) a hj
    omega

theorem DeviceFilled.set {dev : DevAddr → δ} {pages out : List δ} {i : Nat} {a : DevAddr} {fs : List (Fetched δ)}
    (h : DeviceFilled dev (pages.set i (dev a)) out (i + 1) fs) (hi : i < pages.length) :
    DeviceFilled dev pages out i (.media a :: fs) := by
  constructor
  · intro j b hj
    cases j with
    | zero =>
      cases hj
      rw [Nat.add_zero,h.kept i (by intro j b _; omega),List.getElem?_set_self hi]
    | succ j =>
      rw [← h.media j b hj]
      congr 1
      omega
  · intro k hk
    have hne := hk 0 a rfl
    rw [h.kept k,List.getElem?_set_ne (by omega)]
    intro j b hj
    have := hk (j + 1) b hj
    omega

theorem fillHoles_spec {dev : DevAddr → δ} {bm : Nat → Bool} {n i : Nat} {fs : List (Fetched δ)} {pages : List δ}
    (hn : i + fs.length = n) (hbm : ∀ (j : Nat) f, fs[j]? = some f → (bm (i + j) = true ↔ f.media? = none))
    (hlen : n ≤ pages.length) : DeviceFilled dev pages
      (fillHoles bm 0 n ((fs.filterMap Fetched.media?).map dev) (findNextZeroBit bm n i) pages) i fs := by
  induction fs generalizing i pages with
  | nil => exact ⟨nofun,fun _ _ => rfl⟩
  | cons f fs ih =>
    rw [List.length_cons] at hn
    have hbit : bm i = true ↔ f.media? = none := hbm 0 f rfl
    have hrest : ∀ (j : Nat) g, fs[j]? = some g → (bm (i + 1 + j) = true ↔ g.media? = none) := by
      intro j g hj
      rw [Nat.add_right_comm,Nat.add_assoc]
      exact hbm (j + 1) g hj
    cases hf : f.media? with
    | none =>
      rw [List.filterMap_cons_none hf,findNextZeroBit_of_set (by omega) (hbit.mpr hf)]
      exact (ih (by omega) hrest hlen).skip hf
    | some a =>
      obtain rfl : f = .media a := by
        cases f <;> cases hf
        rfl
      have hclear : bm i = false := by
        rw [hf] at hbit
        simpa using hbit
      rw [List.filterMap_cons_some hf,findNextZeroBit_of_clear (by omega) hclear,List.map_cons,fillHoles,if_pos (by omega),Nat.zero_add]
      have hset : n ≤ (pages.set i (dev a)).length := by
        rw [List.length_set]
        exact hlen
      exact (ih (by omega) hrest hset).set (by omega)

theorem readPages_spec {dev : DevAddr → δ} {i : Nat} {fs : List (Fetched δ)} {pages : List δ}
    (hmedia : ∀ f ∈ fs, f.media? ≠ none) (hlen : i + fs.length ≤ pages.length) :
    DeviceFilled dev pages (readPages ((fs.filterMap Fetched.media?).map dev) i pages) i fs := by
  induction fs generalizing i pages with
  | nil => exact ⟨nofun,fun _ _ => rfl⟩
  | cons f fs ih =>
    rw [List.length_cons] at hlen
    cases hf : f.media? with
    | none => exact absurd hf (hmedia f List.mem_cons_self)
    | some a =>
      obtain rfl : f = .media a := by
        cases f <;> cases hf
        rfl
      rw [List.filterMap_cons_some hf,List.map_cons,readPages]
      have hset : i + 1 + fs.length ≤ (pages.set i (dev a)).length := by
        rw [List.length_set]
        omega
      exact (ih (fun g hg => hmedia g (List.mem_cons_of_mem _ hg)) hset).set (by omega)

/-! ## Whole reads -/

variable {cfg : Config}

/-- The sectors of a read, fetched one by one. -/
def FetchedFrom (s : Ftl δ) (n blba : Nat) (fs : List (Fetched δ)) : Prop :=
  ∀ i f, fs[i]? = some f → fetch s (blba + i) n (s.map.transMap (blba + i)) = some f

theorem pblkReadPpalistRq_gathered {s : Ftl δ} {n blba nrSecs : Nat} {pages : List δ} {q : ReadRq δ}
    (h : pblkReadPpalistRq cfg s n blba nrSecs ⟨pages,0,fun _ => false,[],false⟩ = some q) :
    ∃ fs, fs.length = nrSecs ∧ FetchedFrom s n blba fs ∧ Gathered pages fs q := by
  unfold pblkReadPpalistRq at h
  split at h
  · obtain ⟨fs,hlen,hfetch,rfl⟩ := readSectors_eq_some h
    have hlength : fs.length = nrSecs := by simpa [pblkLookupL2pSeq] using hlen
    refine ⟨fs,hlength,?_,Gathered.nil.addAll Positioned.nil⟩
    intro i f hf
    have hi := (List.getElem?_eq_some_iff.mp hf).1
    have hp : (pblkLookupL2pSeq s.map blba nrSecs)[i]? = some (s.map.transMap (blba + i)) := by
      simp [pblkLookupL2pSeq,List.getElem?_map,List.getElem?_range (show i < nrSecs by omega)]
    have := hfetch i _ f hp hf
    rwa [Nat.zero_add] at this
  · cases h

theorem pblkReadRq_gathered {s : Ftl δ} {n lba : Nat} {pages : List δ} {r : NvmIo} {q : ReadRq δ}
    (h : pblkReadRq cfg s n lba ⟨pages,0,fun _ => false,[],false⟩ = some (r,q)) :
    ∃ f, FetchedFrom s n lba [f] ∧ Gathered pages [f] q := by
  unfold pblkReadRq at h
  split at h
  · obtain ⟨f,hf,heq⟩ := Option.map_eq_some_iff.mp h
    have hnil : Gathered pages [] _ := .nil
    obtain ⟨hadd,-⟩ := hnil.add .nil f
    refine ⟨f,?_,?_⟩
    · intro i g hg
      obtain ⟨rfl,rfl⟩ : i = 0 ∧ f = g := by
        cases i with
        | zero => exact ⟨rfl,Option.some.inj hg⟩
        | succ i => cases hg
      exact hf
    · rw [List.nil_append] at hadd
      cases f <;> cases heq <;> exact ⟨hadd.bitmap,hadd.ppas,hadd.length,hadd.copied,hadd.kept⟩
  · cases h

/-- The device writes the sectors that the buffer does not have, whichever way they are read. -/
theorem Gathered.deviceFilled {dev : DevAddr → δ} {pages : List δ} {fs : List (Fetched δ)} {q : ReadRq δ}
    (h : Gathered pages fs q) (hlen : pages.length = fs.length) : DeviceFilled dev q.pages
      (if (List.range fs.length).all q.bitmap then q.pages
        else if (List.range fs.length).all fun i => !q.bitmap i then readPages (q.ppas.map dev) 0 q.pages
        else fillHoles q.bitmap 0 fs.length (q.ppas.map dev) (findNextZeroBit q.bitmap fs.length 0) q.pages) 0 fs := by
  have hbit : ∀ (j : Nat) f, fs[j]? = some f → (q.bitmap j = true ↔ f.media? = none) := by
    intro j f hf
    rw [h.bitmap]
    simp [hf]
  have hpages : fs.length ≤ q.pages.length := by rw [h.length,hlen]
  rw [h.ppas]
  split
  · rename_i hfull
    refine ⟨?_,fun _ _ => rfl⟩
    intro j a hj
    have hset : q.bitmap j = true := by
      apply List.all_eq_true.mp hfull
      exact List.mem_range.mpr (List.getElem?_eq_some_iff.mp hj).1
    cases (hbit j _ hj).mp hset
  · split
    · rename_i hclear
      apply readPages_spec
      · intro f hf hnone
        obtain ⟨j,hj⟩ := List.getElem?_of_mem hf
        have hset := (hbit j f hj).mpr hnone
        have hmem := List.mem_range.mpr (List.getElem?_eq_some_iff.mp hj).1
        have := List.all_eq_true.mp hclear j hmem
        simp [hset] at this
      · omega
    · apply fillHoles_spec
      · exact Nat.zero_add _
      · intro j f hf
        rw [Nat.zero_add]
        exact hbit j f hf
      · exact hpages

theorem pblkSubmitRead_eq_some {s : Ftl δ} {dev : DevAddr → δ} {n blba nrSecs : Nat} {pages out : List δ}
    {r : NvmIo} (hpos : 0 < nrSecs) (hmax : nrSecs ≤ maxReqAddrs) (hlen : pages.length = nrSecs)
    (h : pblkSubmitRead cfg s dev n blba nrSecs 0 pages = some (r,out)) :
    r = .ok ∧ ∃ fs q, fs.length = nrSecs ∧ FetchedFrom s n blba fs ∧ Gathered pages fs q ∧
      DeviceFilled dev q.pages out 0 fs := by
  unfold pblkSubmitRead at h
  rw [if_neg (Nat.not_lt.mpr hmax)] at h
  obtain ⟨q,hq,hres⟩ := Option.map_eq_some_iff.mp h
  have hgather : ∃ fs, fs.length = nrSecs ∧ FetchedFrom s n blba fs ∧ Gathered pages fs q := by
    split at hq
    · exact pblkReadPpalistRq_gathered hq
    · obtain ⟨⟨r',q'⟩,hread,rfl⟩ := Option.map_eq_some_iff.mp hq
      obtain ⟨f,hf,hg⟩ := pblkReadRq_gathered hread
      exact ⟨[f],by simp; omega,hf,hg⟩
  obtain ⟨fs,rfl,hfetch,hg⟩ := hgather
  cases hres
  exact ⟨rfl,fs,q,rfl,hfetch,hg,hg.deviceFilled hlen⟩

theorem readSectors_isSome {s : Ftl δ} {n blba i : Nat} {ps : List PpaAddr} {q : ReadRq δ}
    (h : ∀ (j : Nat) p, ps[j]? = some p → ∃ f, fetch s (blba + (i + j)) n p = some f) :
    ∃ q', readSectors s n blba ps i q = some q' := by
  induction ps generalizing i q with
  | nil => exact ⟨q,rfl⟩
  | cons p ps ih =>
    obtain ⟨f,hf⟩ := h 0 p rfl
    have hrest : ∀ (j : Nat) p', ps[j]? = some p' → ∃ g, fetch s (blba + (i + 1 + j)) n p' = some g := by
      intro j p' hp'
      rw [Nat.add_right_comm i,Nat.add_assoc i]
      exact h (j + 1) p' hp'
    obtain ⟨q',hq'⟩ := ih hrest
    rw [Nat.add_zero] at hf
    refine ⟨q',?_⟩
    rw [readSectors,hf,Option.bind_some]
    exact hq'

/-- A read within the bounds comes to an end once every sector can be fetched. -/
theorem pblkSubmitRead_isSome {s : Ftl δ} {dev : DevAddr → δ} {n blba nrSecs init : Nat} {pages : List δ}
    (hend : blba + nrSecs < cfg.nrSecs) (hfetch : ∀ lba, ∃ f, fetch s lba n (s.map.transMap lba) = some f) :
    ∃ r, pblkSubmitRead cfg s dev n blba nrSecs init pages = some r := by
  unfold pblkSubmitRead
  split
  · exact ⟨_,rfl⟩
  · dsimp only
    split
    · have hlookup : ∀ (j : Nat) p, (pblkLookupL2pSeq s.map blba nrSecs)[j]? = some p →
          ∃ f, fetch s (blba + (0 + j)) n p = some f := by
        intro j p hp
        obtain ⟨hj,rfl⟩ := List.getElem?_eq_some_iff.mp hp
        rw [Nat.zero_add]
        simpa [pblkLookupL2pSeq] using hfetch (blba + j)
      obtain ⟨q,hq⟩ := readSectors_isSome hlookup
      rw [pblkReadPpalistRq,if_pos hend,hq]
      exact ⟨_,rfl⟩
    · obtain ⟨f,hf⟩ := hfetch blba
      rw [pblkReadRq,if_pos (by omega),hf]
      exact ⟨_,rfl⟩

end Sdssd.Pblk
