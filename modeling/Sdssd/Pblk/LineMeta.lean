import Sdssd.Pblk.LineSetup

/-!
# The metadata of a line

`pblk_line_submit_emeta_io` writes the end metadata to the pages that `__pblk_alloc_page` still has for the line,
and reads it from `emeta_ssec` on, past the bad blocks. Nothing in the line records where it was written. The start
metadata is read by `pblk_line_read_smeta`.
-/

namespace Sdssd.Pblk

open Framework

section Io

variable {σ : Type} (cfg : Config) (next : σ → Option (σ × Nat))

/-- `n` rounds of the loop that fills `ppa_list`, a page each. -/
def fillPpaList : Nat → σ → Option (σ × List Nat)
  | 0, s => some (s,[])
  | n + 1, s => (next s).bind fun x => (fillPpaList n x.1).map fun y => (y.1,List.range' x.2 cfg.minWritePgs ++ y.2)

/-- `pblk_line_submit_emeta_io` from `next_rq` on, for `left` sectors: the addresses of all its requests. `n` bounds
their number. -/
def pblkLineSubmitEmetaIo : Nat → Nat → σ → Option (σ × List Nat)
  | 0, _, _ => none
  | n + 1, left, s =>
    let rqPpas := pblkCalcSecs cfg left 0
    (fillPpaList cfg next ((rqPpas + cfg.minWritePgs - 1) / cfg.minWritePgs) s).bind fun x =>
      if left - rqPpas = 0 then some x
      else (pblkLineSubmitEmetaIo n (left - rqPpas) x.1).map fun y => (y.1,x.2 ++ y.2)

end Io

/-- The next page for data. -/
def dataPage (cfg : Config) (l : Line) : Option (Line × Nat) := pblkAllocPage cfg l cfg.minWritePgs

/-- The next page for a write. -/
def emetaWrite (cfg : Config) (l : Line) : Option (Line × Nat) := allocPage cfg l cfg.minWritePgs

/-- `pblk_ppa_to_pos` of `addr_to_gen_ppa`: the channel is below the LUN in an address. -/
def Geo.ppaToPos (g : Geo) (paddr : Nat) : Nat :=
  paddr / g.secPerPl / g.nrChnls % g.lunsPerChnl * g.nrChnls + paddr / g.secPerPl % g.nrChnls

section Read

variable (g : Geo) (cfg : Config) (blkBitmap : Nat → Bool)

/-- The loop over `blk_bitmap`. The source has no bound. -/
def skipBad : Nat → Nat → Option Nat
  | 0, _ => none
  | n + 1, paddr => if blkBitmap (g.ppaToPos paddr) then skipBad n (paddr + cfg.minWritePgs) else some paddr

/-- The next page for a read. -/
def emetaRead (paddr : Nat) : Option (Nat × Nat) :=
  (skipBad g cfg blkBitmap g.pages paddr).map fun a => (a + cfg.minWritePgs,a)

/-- The addresses that `pblk_line_read_smeta` reads. -/
def pblkLineReadSmeta (lm : MetaPages) : Option (List Nat) :=
  let bit := findNextZeroBit blkBitmap g.nrLuns 0
  if g.nrLuns ≤ bit then none else some (List.range' (bit * g.secPerBlk) (lm.smeta * g.secPerPl))

end Read

/-! ## Free pages -/

/-- The pages from `c` to `n` that `pm` does not have. -/
def freePages (pm : Nat → Bool) (c n : Nat) : List Nat := (List.range' c (n - c)).filter fun p => !pm p

section Free

variable {pm qm : Nat → Bool} {c m n q w : Nat} {ps : List Nat}

theorem mem_freePages : q ∈ freePages pm c n ↔ (c ≤ q ∧ q < n) ∧ pm q = false := by
  rw [freePages,List.mem_filter,List.mem_range'_1,Bool.not_eq_true']
  constructor
  · rintro ⟨h,hq⟩
    exact ⟨by omega,hq⟩
  · rintro ⟨h,hq⟩
    exact ⟨by omega,hq⟩

theorem freePages_congr (h : ∀ p, c ≤ p → p < n → pm p = qm p) : freePages pm c n = freePages qm c n := by
  apply List.filter_congr
  intro p hp
  rw [List.mem_range'_1] at hp
  rw [h p hp.1 (by omega)]

theorem freePages_append (hcm : c ≤ m) (hmn : m ≤ n) : freePages pm c m ++ freePages pm m n = freePages pm c n := by
  have hsplit : List.range' c (m - c) ++ List.range' m (n - m) = List.range' c (n - c) := by
    have happ : List.range' c (m - c) ++ List.range' (c + (m - c)) (n - m) = _ := List.range'_append_1
    rwa [show c + (m - c) = m by omega,show m - c + (n - m) = n - c by omega] at happ
  rw [freePages,freePages,← List.filter_append,hsplit,freePages]

theorem length_freePages (pm : Nat → Bool) (hcn : c ≤ n) :
    (freePages pm c n).length + bitmapWeight pm n = n - c + bitmapWeight pm c := by
  induction n, hcn using Nat.le_induction with
  | base => simp [freePages]
  | succ n hcn ih =>
    have hone : freePages pm n (n + 1) = if pm n then [] else [n] := by
      rw [freePages,Nat.add_sub_cancel_left]
      cases hn : pm n <;> simp [hn]
    rw [← freePages_append hcn (Nat.le_succ n),List.length_append,hone,bitmapWeight_succ]
    cases pm n <;> simp <;> omega

/-- The first free page and those behind it. -/
theorem freePages_cons (h : freePages pm c n = q :: ps) :
    (c ≤ q ∧ q < n) ∧ pm q = false ∧ (∀ p, c ≤ p → p < q → pm p = true) ∧ freePages pm (q + 1) n = ps := by
  obtain ⟨hq,hclear⟩ := mem_freePages.mp (h ▸ List.mem_cons_self : q ∈ freePages pm c n)
  have hone : freePages pm q (q + 1) = [q] := by simp [freePages,hclear]
  rw [← freePages_append hq.1 (Nat.le_of_lt hq.2),← freePages_append (Nat.le_succ q) hq.2,hone] at h
  cases hbefore : freePages pm c q with
  | nil =>
    rw [hbefore] at h
    refine ⟨hq,hclear,?_,(List.cons.inj h).2⟩
    intro p hcp hpq
    by_contra hp
    have hmem := mem_freePages.mpr ⟨⟨hcp,hpq⟩,Bool.eq_false_iff.mpr hp⟩
    rw [hbefore] at hmem
    exact List.not_mem_nil hmem
  | cons p rest =>
    -- the head would be a page before `q`
    rw [hbefore] at h
    have hhead : p = q := (List.cons.inj h).1
    have hmem := mem_freePages.mp (hbefore ▸ List.mem_cons_self : p ∈ freePages pm c q)
    omega

theorem findNextZeroBit_spread (hw : 0 < w) (h : freePages pm c n = q :: ps) :
    findNextZeroBit (bitmapSpread w pm) (n * w) (c * w) = q * w := by
  obtain ⟨hq,hclear,hbefore,-⟩ := freePages_cons h
  have hbit : bitmapSpread w pm (q * w) = false := by rw [bitmapSpread,Nat.mul_div_cancel _ hw,hclear]
  have hexists : ∃ i, c * w ≤ i ∧ i < n * w ∧ bitmapSpread w pm i = false :=
    ⟨q * w,Nat.mul_le_mul_right w hq.1,Nat.mul_lt_mul_of_pos_right hq.2 hw,hbit⟩
  obtain ⟨hlow,-,hfound,hset⟩ := findNextZeroBit_spec hexists
  generalize findNextZeroBit _ _ _ = x at hlow hfound hset
  apply Nat.le_antisymm
  · by_contra hlt
    have htrue := hset (q * w) (Nat.mul_le_mul_right w hq.1) (by omega)
    rw [hbit] at htrue
    exact Bool.noConfusion htrue
  · by_contra hlt
    have htrue := hbefore (x / w) ((Nat.le_div_iff_mul_le hw).mpr hlow) ((Nat.div_lt_iff_lt_mul hw).mpr (by omega))
    rw [bitmapSpread,htrue] at hfound
    exact Bool.noConfusion hfound

end Free

/-! ## The pages a loop takes -/

/-- The sectors of pages of `w` sectors. -/
def sectors (w : Nat) (ps : List Nat) : List Nat := ps.flatMap fun p => List.range' (p * w) w

theorem mem_sectors {w a : Nat} {ps : List Nat} : a ∈ sectors w ps ↔ ∃ p ∈ ps, p * w ≤ a ∧ a < (p + 1) * w := by
  simp only [sectors,List.mem_flatMap,List.mem_range'_1,Nat.succ_mul]

theorem length_sectors (w : Nat) (ps : List Nat) : (sectors w ps).length = ps.length * w := by
  induction ps with
  | nil => simp [sectors]
  | cons p ps ih =>
    rw [sectors,List.flatMap_cons,List.length_append,← sectors,ih,List.length_range',List.length_cons,Nat.succ_mul,
      Nat.add_comm]

section Serves

variable {σ : Type} {cfg : Config} {next : σ → Option (σ × Nat)} {R : σ → List Nat → Prop}

/-- In a state that `R` relates to a list of pages, `next` gives these pages one after the other. -/
def Serves (cfg : Config) (next : σ → Option (σ × Nat)) (R : σ → List Nat → Prop) : Prop :=
  ∀ s p ps, R s (p :: ps) → ∃ s', next s = some (s',p * cfg.minWritePgs) ∧ R s' ps

theorem Serves.fillPpaList (h : Serves cfg next R) {s : σ} (ps qs : List Nat) (hs : R s (ps ++ qs)) :
    ∃ s', fillPpaList cfg next ps.length s = some (s',sectors cfg.minWritePgs ps) ∧ R s' qs := by
  induction ps generalizing s with
  | nil => exact ⟨s,rfl,hs⟩
  | cons p ps ih =>
    obtain ⟨s₁,hnext,hs₁⟩ := h s p (ps ++ qs) hs
    obtain ⟨s',hrest,hs'⟩ := ih hs₁
    refine ⟨s',?_,hs'⟩
    rw [List.length_cons,Pblk.fillPpaList,hnext,Option.bind_some,hrest,Option.map_some]
    rfl

/-- A request is a number of whole pages. -/
theorem pblkCalcSecs_pages (hmax : cfg.minWritePgs ∣ cfg.maxWritePgs) {n : Nat} (hn : 0 < n) :
    ∃ k, pblkCalcSecs cfg (n * cfg.minWritePgs) 0 = k * cfg.minWritePgs ∧ 0 < k ∧ k ≤ n := by
  have hmin := cfg.min_pos
  rw [pblkCalcSecs]
  by_cases hle : cfg.maxWritePgs ≤ n * cfg.minWritePgs
  · obtain ⟨k,hk⟩ := hmax
    have hminmax := cfg.min_le_max
    rw [if_pos hle]
    refine ⟨k,by rw [hk,Nat.mul_comm],?_,?_⟩
    · apply Nat.pos_of_ne_zero
      rintro rfl
      rw [Nat.mul_zero] at hk
      omega
    · rw [hk,Nat.mul_comm] at hle
      exact Nat.le_of_mul_le_mul_right hle hmin
  · rw [if_neg hle,if_pos (Nat.le_mul_of_pos_left _ hn),Nat.mul_div_cancel _ hmin]
    exact ⟨n,Nat.mul_comm ..,hn,Nat.le_refl n⟩

theorem Serves.submitEmetaIo (h : Serves cfg next R) (hmax : cfg.minWritePgs ∣ cfg.maxWritePgs) {fuel : Nat} {s : σ}
    (ps qs : List Nat) (hps : 0 < ps.length) (hfuel : ps.length ≤ fuel) (hs : R s (ps ++ qs)) :
    ∃ s', pblkLineSubmitEmetaIo cfg next fuel (ps.length * cfg.minWritePgs) s =
      some (s',sectors cfg.minWritePgs ps) ∧ R s' qs := by
  induction fuel generalizing s ps with
  | zero => omega
  | succ fuel ih =>
    obtain ⟨k,hcalc,hpos,hle⟩ := pblkCalcSecs_pages hmax hps
    have hmin := cfg.min_pos
    have hrounds : (k * cfg.minWritePgs + cfg.minWritePgs - 1) / cfg.minWritePgs = k := by
      rw [Nat.add_sub_assoc hmin,Nat.add_comm,Nat.add_mul_div_right _ _ hmin,Nat.div_eq_of_lt (by omega),Nat.zero_add]
    have htake : (ps.take k).length = k := List.length_take_of_le hle
    have hs' : R s (ps.take k ++ (ps.drop k ++ qs)) := by rwa [← List.append_assoc,List.take_append_drop]
    obtain ⟨s₁,hfill,hs₁⟩ := h.fillPpaList (ps.take k) (ps.drop k ++ qs) hs'
    rw [htake] at hfill
    have hleft : ps.length * cfg.minWritePgs - k * cfg.minWritePgs = (ps.drop k).length * cfg.minWritePgs := by
      rw [List.length_drop,Nat.sub_mul]
    rw [pblkLineSubmitEmetaIo,hcalc,hrounds,hfill,Option.bind_some,hleft]
    by_cases hlast : (ps.drop k).length = 0
    · have hnil := List.eq_nil_of_length_eq_zero hlast
      have hall : ps.take k = ps := by rw [← List.append_nil (ps.take k),← hnil,List.take_append_drop]
      rw [hlast,Nat.zero_mul,if_pos rfl,hall]
      rw [hnil] at hs₁
      exact ⟨s₁,rfl,hs₁⟩
    · have hne : (ps.drop k).length * cfg.minWritePgs ≠ 0 := Nat.mul_ne_zero hlast (by omega)
      have hless : (ps.drop k).length ≤ fuel := by
        rw [List.length_drop]
        omega
      obtain ⟨s',hrest,hs'⟩ := ih (ps.drop k) (Nat.pos_of_ne_zero hlast) hless hs₁
      refine ⟨s',?_,hs'⟩
      rw [if_neg hne,hrest,Option.map_some,sectors,sectors,← List.flatMap_append,List.take_append_drop,sectors]

end Serves

/-! ## Writing and reading -/

/-- The configuration that `pblk_core_init` makes for sectors of the size of a memory page. -/
structure Geo.Configures (g : Geo) (cfg : Config) : Prop where
  secPerLine : cfg.secPerLine = g.secPerLine
  min : cfg.minWritePgs = g.secPerPl
  max : cfg.minWritePgs ∣ cfg.maxWritePgs

/-- `ps` are the pages that are left in the line. -/
def Line.PagesLeft (g : Geo) (l : Line) (ps : List Nat) : Prop :=
  ∃ pm c, l.mapBitmap = bitmapSpread g.secPerPl pm ∧ l.curSec = c * g.secPerPl ∧ (∀ p, p < c → pm p = true) ∧
    freePages pm c g.pages = ps

/-- `ps` are the pages on good blocks from `paddr` to the end of the line. -/
def Geo.GoodFrom (g : Geo) (blkBitmap : Nat → Bool) (paddr : Nat) (ps : List Nat) : Prop :=
  ∃ c, paddr = c * g.secPerPl ∧ freePages (fun p => blkBitmap (p % g.nrLuns)) c g.pages = ps

section Pages

variable {g : Geo} {cfg : Config} {blkBitmap : Nat → Bool}

theorem Line.PagesLeft.allocPage (hcfg : g.Configures cfg) {l : Line} {p : Nat} {ps : List Nat}
    (h : l.PagesLeft g (p :: ps)) : ∃ l', allocPage cfg l cfg.minWritePgs = some (l',p * cfg.minWritePgs) ∧
      l'.PagesLeft g ps ∧ l'.leftMsecs = l.leftMsecs := by
  obtain ⟨pm,c,hmap,hcur,hbelow,hfree⟩ := h
  obtain ⟨hp,hclear,hbefore,hrest⟩ := freePages_cons hfree
  have hroom : ¬g.pages * g.secPerPl < c * g.secPerPl + g.secPerPl := by
    have hle : (c + 1) * g.secPerPl ≤ g.pages * g.secPerPl := Nat.mul_le_mul_right _ (by omega)
    rw [Nat.succ_mul] at hle
    omega
  have hset := bitmapSet_spread g.pl_pos pm p 1
  rw [Nat.one_mul] at hset
  rw [Pblk.allocPage,hcfg.secPerLine,hcfg.min,g.secPerLine_eq,hcur,if_neg hroom,hmap,findNextZeroBit_spread g.pl_pos hfree]
  refine ⟨_,rfl,⟨bitmapSet pm p 1,p + 1,hset,(Nat.succ_mul ..).symm,?_,?_⟩,rfl⟩
  · intro i hi
    by_cases hip : i = p
    · simp [bitmapSet,hip]
    · have htrue : pm i = true := by
        by_cases hic : i < c
        · exact hbelow i hic
        · exact hbefore i (by omega) (by omega)
      rw [bitmapSet,htrue,Bool.true_or]
  · rw [← hrest]
    apply freePages_congr
    intro i hi _
    have hout : ¬i < p + 1 := by omega
    simp [bitmapSet,hout]

theorem serves_emetaWrite (hcfg : g.Configures cfg) : Serves cfg (emetaWrite cfg) (Line.PagesLeft g) := by
  intro l p ps h
  obtain ⟨l',halloc,hleft,-⟩ := h.allocPage hcfg
  exact ⟨l',halloc,hleft⟩

/-- Data takes the pages before `es`, and `left_msecs` counts them. -/
theorem serves_dataPage (hcfg : g.Configures cfg) (es : List Nat) : Serves cfg (dataPage cfg)
    fun l ps => l.PagesLeft g (ps ++ es) ∧ l.leftMsecs = (ps.length * cfg.minWritePgs : Nat) := by
  rintro l p ps ⟨h,hmsecs⟩
  rw [List.cons_append] at h
  obtain ⟨l',halloc,hleft,hsame⟩ := h.allocPage hcfg
  rw [dataPage,pblkAllocPage,halloc,Option.map_some]
  refine ⟨_,rfl,hleft,?_⟩
  rw [List.length_cons,Nat.succ_mul] at hmsecs
  dsimp only
  omega

theorem Geo.ppaToPos_page (p : Nat) : g.ppaToPos (p * g.secPerPl) = p % g.nrLuns := by
  rw [ppaToPos,Nat.mul_div_cancel _ g.pl_pos,nrLuns,Nat.mod_mul,Nat.mul_comm,Nat.add_comm]

theorem skipBad_eq (hcfg : g.Configures cfg) {fuel c q : Nat} (hle : c ≤ q) (hfuel : q - c < fuel)
    (hbad : ∀ p, c ≤ p → p < q → blkBitmap (p % g.nrLuns) = true) (hgood : blkBitmap (q % g.nrLuns) = false) :
    skipBad g cfg blkBitmap fuel (c * g.secPerPl) = some (q * g.secPerPl) := by
  induction fuel generalizing c with
  | zero => omega
  | succ fuel ih =>
    rw [skipBad,g.ppaToPos_page]
    by_cases hc : c = q
    · rw [hc,hgood,if_neg Bool.false_ne_true]
    · rw [hbad c (Nat.le_refl c) (by omega),if_pos rfl,hcfg.min,← Nat.succ_mul]
      exact ih (by omega) (by omega) fun p hp hpq => hbad p (by omega) hpq

theorem serves_emetaRead (hcfg : g.Configures cfg) :
    Serves cfg (emetaRead g cfg blkBitmap) (g.GoodFrom blkBitmap) := by
  rintro paddr p ps ⟨c,rfl,hfree⟩
  obtain ⟨hp,hgood,hbad,hrest⟩ := freePages_cons hfree
  rw [emetaRead,skipBad_eq hcfg hp.1 (by omega) hbad hgood,Option.map_some,hcfg.min]
  exact ⟨_,rfl,p + 1,(Nat.succ_mul ..).symm,hrest⟩

/-- A line without pages left is full. -/
theorem Line.PagesLeft.full {l : Line} (h : l.PagesLeft g []) {i : Nat} (hi : i < g.secPerLine) :
    l.mapBitmap i = true := by
  obtain ⟨pm,c,hmap,-,hbelow,hfree⟩ := h
  rw [g.secPerLine_eq] at hi
  rw [hmap,bitmapSpread]
  by_cases hc : i / g.secPerPl < c
  · exact hbelow _ hc
  · by_contra hclear
    have hmem : i / g.secPerPl ∈ freePages pm c g.pages :=
      mem_freePages.mpr ⟨⟨by omega,(Nat.div_lt_iff_lt_mul g.pl_pos).mpr hi⟩,Bool.eq_false_iff.mpr hclear⟩
    rw [hfree] at hmem
    exact List.not_mem_nil hmem

end Pages

namespace SetupFits

variable {g : Geo} {lm : MetaPages} {blkBitmap : Nat → Bool} {fails r : Nat} {l : Line}

/-- From `emeta_ssec` on there are as many pages as the end metadata needs, those on good blocks. -/
theorem Ready.emetaPages (h : SetupFits g lm blkBitmap fails) (hready : Ready g lm blkBitmap fails l r) :
    (freePages (usedPages g lm blkBitmap fails) r g.pages).length = lm.emeta ∧
      g.GoodFrom blkBitmap (r * g.secPerPl) (freePages (usedPages g lm blkBitmap fails) r g.pages) := by
  have hbelow := hready.below
  have habove := hready.above
  have hcount := hready.count
  have hroom := h.room
  constructor
  · have hlen := length_freePages (usedPages g lm blkBitmap fails) (show r ≤ g.pages by omega)
    omega
  · refine ⟨r,rfl,?_⟩
    apply freePages_congr
    intro p hp hlt
    have hout : ¬p < findNextZeroBit blkBitmap g.nrLuns 0 + (fails + lm.smeta) := by omega
    simp [usedPages,bitmapSet,hout,badPages_eq hlt]

/-- The pages below are for data. -/
theorem Ready.dataPages (h : SetupFits g lm blkBitmap fails) (hready : Ready g lm blkBitmap fails l r) :
    ∃ ps, ps.length * g.secPerPl = l.secInLine ∧ (∀ p ∈ ps, p < r) ∧
      l.PagesLeft g (ps ++ freePages (usedPages g lm blkBitmap fails) r g.pages) := by
  have hbelow := hready.below
  have hcount := hready.count
  have hroom := h.room
  refine ⟨freePages (usedPages g lm blkBitmap fails)
    (findNextZeroBit blkBitmap g.nrLuns 0 + (fails + lm.smeta)) r,?_,?_,?_⟩
  · have hlen := length_freePages (usedPages g lm blkBitmap fails) hready.above
    have hall : bitmapWeight (usedPages g lm blkBitmap fails) _ = _ := bitmapWeight_of_full fun p hp => h.used_of_lt hp
    have habove := hready.above
    rw [hready.secs]
    congr 1
    omega
  · intro p hp
    exact (mem_freePages.mp hp).1.2
  · exact ⟨_,_,hready.map,hready.curSec,fun p hp => h.used_of_lt hp,
      (freePages_append hready.above (by omega)).symm⟩

end SetupFits

/-- The end metadata of a line is read from the sectors it was written to, whatever blocks are bad. The data has
taken all its sectors then, and after the write no sector of the line is free. -/
theorem emeta_read_back {g : Geo} {lm : MetaPages} {blkBitmap : Nat → Bool} {fails : Nat} {cfg : Config}
    (h : SetupFits g lm blkBitmap fails) (hcfg : g.Configures cfg) (l : Line) :
    ∃ l₁ smetaSsec emetaSsec, pblkLineSetup g lm blkBitmap fails l = some (.ready l₁ smetaSsec emetaSsec) ∧
      ∃ l₂ data, fillPpaList cfg (dataPage cfg) (l₁.secInLine / cfg.minWritePgs) l₁ = some (l₂,data) ∧
        data.length = l₁.secInLine ∧ pblkLineIsFull l₂ = true ∧ (∀ a ∈ data, a < emetaSsec) ∧
        ∃ l₃ paddr emeta,
          pblkLineSubmitEmetaIo cfg (emetaWrite cfg) lm.emeta (lm.emeta * g.secPerPl) l₂ = some (l₃,emeta) ∧
          pblkLineSubmitEmetaIo cfg (emetaRead g cfg blkBitmap) lm.emeta (lm.emeta * g.secPerPl) emetaSsec =
            some (paddr,emeta) ∧
          (∀ a ∈ emeta, emetaSsec ≤ a) ∧ ∀ i, i < g.secPerLine → l₃.mapBitmap i = true := by
  obtain ⟨l₁,r,hsetup,hready⟩ := h.pblkLineSetup_ready l
  obtain ⟨hemeta,hgood⟩ := hready.emetaPages h
  obtain ⟨ps,hsecs,hps,hpages⟩ := hready.dataPages h
  have hrounds : l₁.secInLine / cfg.minWritePgs = ps.length := by
    rw [← hsecs,hcfg.min,Nat.mul_div_cancel _ g.pl_pos]
  have hlow : ∀ p ∈ freePages (SetupFits.usedPages g lm blkBitmap fails) r g.pages, r ≤ p :=
    fun p hp => (mem_freePages.mp hp).1.1
  generalize freePages (SetupFits.usedPages g lm blkBitmap fails) r g.pages = es at hemeta hgood hpages hlow
  have hpos : 0 < es.length := hemeta ▸ lm.emeta_pos
  rw [← hemeta,← hcfg.min]
  -- the data, the write and the read, each with the pages it is served
  obtain ⟨l₂,hdata,hleft,hmsecs⟩ := (serves_dataPage hcfg es).fillPpaList ps [] (s := l₁)
    ⟨by rwa [List.append_nil],by rw [hready.left.2.1,List.append_nil,hcfg.min,hsecs]⟩
  obtain ⟨l₃,hwrite,hfull⟩ := (serves_emetaWrite hcfg).submitEmetaIo hcfg.max es [] hpos (Nat.le_refl _) (s := l₂)
    (by rwa [List.append_nil])
  obtain ⟨paddr,hread,-⟩ := (serves_emetaRead hcfg).submitEmetaIo hcfg.max es [] hpos (Nat.le_refl _)
    (s := r * g.secPerPl) (by rwa [List.append_nil])
  refine ⟨l₁,_,_,hsetup,l₂,_,by rw [hrounds]; exact hdata,?_,?_,?_,l₃,paddr,_,hwrite,hread,?_,fun i hi => hfull.full hi⟩
  · rw [length_sectors,hcfg.min,hsecs]
  · rw [pblkLineIsFull,hmsecs,List.length_nil,Nat.zero_mul]
    rfl
  · intro a ha
    obtain ⟨p,hp,-,hlt⟩ := mem_sectors.mp ha
    rw [hcfg.min] at hlt
    exact Nat.lt_of_lt_of_le hlt (Nat.mul_le_mul_right _ (hps p hp))
  · intro a ha
    obtain ⟨p,hp,hle,-⟩ := mem_sectors.mp ha
    rw [hcfg.min] at hle
    exact Nat.le_trans (Nat.mul_le_mul_right _ (hlow p hp)) hle

/-- One page is a request. -/
def smallGeoConfig : Config := { smallConfig with secPerLine := 24 }

theorem smallGeo_configures : smallGeo.Configures smallGeoConfig := ⟨rfl,rfl,Nat.dvd_refl 2⟩

theorem emeta_read_back_small :
    ∃ l₁ smetaSsec emetaSsec,
      pblkLineSetup smallGeo smallMeta smallBad 0 (smallLines.line 0) = some (.ready l₁ smetaSsec emetaSsec) ∧
      ∃ l₂ data l₃ paddr emeta,
        fillPpaList smallGeoConfig (dataPage smallGeoConfig) (l₁.secInLine / 2) l₁ = some (l₂,data) ∧
        pblkLineSubmitEmetaIo smallGeoConfig (emetaWrite smallGeoConfig) 2 4 l₂ = some (l₃,emeta) ∧
        pblkLineSubmitEmetaIo smallGeoConfig (emetaRead smallGeo smallGeoConfig smallBad) 2 4 emetaSsec =
          some (paddr,emeta) ∧
        ∀ i, i < 24 → l₃.mapBitmap i = true := by
  obtain ⟨l₁,smetaSsec,emetaSsec,hsetup,l₂,data,hdata,-,-,-,l₃,paddr,emeta,hwrite,hread,-,hfull⟩ :=
    emeta_read_back smallBad_fits smallGeo_configures (smallLines.line 0)
  exact ⟨l₁,smetaSsec,emetaSsec,hsetup,l₂,data,l₃,paddr,emeta,hdata,hwrite,hread,hfull⟩

example : (pblkLineSubmitEmetaIo smallGeoConfig (emetaRead smallGeo smallGeoConfig smallBad) 2 4 18).map Prod.snd =
    some [18,19,20,21] := by decide +kernel

/-! ## The start metadata -/

/-- The start metadata is written to the first row of pages, one page on for each block, but it is looked for one
block on for each block. If no write failed, it is found only when the first block is good or blocks have a single
page. -/
theorem smeta_read_back_iff {g : Geo} {lm : MetaPages} {blkBitmap : Nat → Bool} {fails : Nat}
    (h : SetupFits g lm blkBitmap fails) (l : Line) :
    ∃ l' smetaSsec emetaSsec, pblkLineSetup g lm blkBitmap fails l = some (.ready l' smetaSsec emetaSsec) ∧
      (pblkLineReadSmeta g blkBitmap lm = some (List.range' smetaSsec (lm.smeta * g.secPerPl)) ↔
        findNextZeroBit blkBitmap g.nrLuns 0 * g.pgsPerBlk = findNextZeroBit blkBitmap g.nrLuns 0 + fails) := by
  obtain ⟨l',r,hsetup,-⟩ := h.pblkLineSetup_ready l
  refine ⟨l',_,_,hsetup,?_⟩
  have hfirst := h.firstGood_lt
  rw [pblkLineReadSmeta,if_neg (by omega),Option.some_inj]
  have hlen : lm.smeta * g.secPerPl ≠ 0 := Nat.mul_ne_zero (Nat.ne_of_gt lm.smeta_pos) (Nat.ne_of_gt g.pl_pos)
  have hblk : findNextZeroBit blkBitmap g.nrLuns 0 * g.secPerBlk =
      findNextZeroBit blkBitmap g.nrLuns 0 * g.pgsPerBlk * g.secPerPl := by
    rw [Geo.secPerBlk,Nat.mul_comm g.secPerPl,Nat.mul_assoc]
  rw [hblk]
  constructor
  · intro hread
    -- the lists are not empty, so they start at the same sector
    have hhead := congrArg List.head? hread
    rw [List.head?_range',List.head?_range',if_neg hlen,if_neg hlen,Option.some_inj] at hhead
    exact Nat.eq_of_mul_eq_mul_right g.pl_pos hhead
  · intro hbit
    rw [hbit]

theorem smeta_read_back_iff_small : ∃ l' smetaSsec emetaSsec,
    pblkLineSetup smallGeo smallMeta smallBad 0 (smallLines.line 0) = some (.ready l' smetaSsec emetaSsec) ∧
      pblkLineReadSmeta smallGeo smallBad smallMeta ≠ some (List.range' smetaSsec 2) := by
  obtain ⟨l',smetaSsec,emetaSsec,hsetup,hread⟩ := smeta_read_back_iff smallBad_fits (smallLines.line 0)
  exact ⟨l',smetaSsec,emetaSsec,hsetup,fun heq => absurd (hread.mp heq) (by decide)⟩

end Sdssd.Pblk
