import Sdssd.Pblk.ValidCount

/-!
# Setting up a line

`pblk_line_setup` prepares a line for data: it takes out the bad blocks, puts the start metadata on the first
good block and reserves the last good sectors of the line for the end metadata. What is left is `sec_in_line`.
-/

namespace Sdssd.Pblk

open Framework

/-- `struct nvm_geo`, as far as lines use it. -/
structure Geo where
  nrChnls : Nat
  lunsPerChnl : Nat
  secPerPl : Nat
  pgsPerBlk : Nat
  chnls_pos : 0 < nrChnls
  luns_pos : 0 < lunsPerChnl
  pl_pos : 0 < secPerPl

namespace Geo

variable (g : Geo)

def nrLuns : Nat := g.nrChnls * g.lunsPerChnl

def secPerBlk : Nat := g.secPerPl * g.pgsPerBlk

/-- `lm->sec_per_line`. -/
def secPerLine : Nat := g.secPerBlk * g.nrLuns

/-- The pages of a line, one of each block and then the next of each. -/
def pages : Nat := g.pgsPerBlk * g.nrLuns

theorem nrLuns_pos : 0 < g.nrLuns := Nat.mul_pos g.chnls_pos g.luns_pos

theorem secPerLine_eq : g.secPerLine = g.pages * g.secPerPl := by
  rw [secPerLine,secPerBlk,pages,Nat.mul_assoc,Nat.mul_comm]

/-- `l_mg->bb_template`: the sectors of the first block. -/
def bbTemplate : Nat → Bool :=
  (List.range g.pgsPerBlk).foldl (fun bm i => bitmapSet bm (i * (g.nrLuns * g.secPerPl)) g.secPerPl) fun _ => false

end Geo

/-- How many pages `pblk_lines_init` found that the metadata needs. -/
structure MetaPages where
  smeta : Nat
  emeta : Nat
  smeta_pos : 0 < smeta
  emeta_pos : 0 < emeta

def subU32 (a b : Nat) : Nat := (a + 2 ^ 32 - b) % 2 ^ 32

theorem subU32_of_le {a b : Nat} (hle : b ≤ a) (hlt : a < 2 ^ 32) : subU32 a b = a - b := by
  rw [subU32]
  omega

section Setup

variable (g : Geo) (lm : MetaPages) (blkBitmap : Nat → Bool)

/-- `map_bitmap`, `sec_in_line` and the bad blocks where the end metadata would be. -/
structure BadBlocks where
  map : Nat → Bool
  secInLine : Nat
  nrBb : Nat

/-- One round of the loop over `blk_bitmap`. `lm->emeta_bb` is `nr_luns` less the pages of the end metadata, in
unsigned arithmetic. -/
def BadBlocks.add (x : BadBlocks) (bit : Nat) : BadBlocks :=
  if blkBitmap bit then
    ⟨bitmapOr x.map (bitmapShiftLeft g.bbTemplate (bit * g.secPerPl) g.secPerLine),subU32 x.secInLine g.secPerBlk,
      if subU32 g.nrLuns lm.emeta ≤ bit then x.nrBb + 1 else x.nrBb⟩
  else x

/-- The first `n` rounds. -/
def badBlocks (n : Nat) : BadBlocks :=
  (List.range n).foldl (BadBlocks.add g lm blkBitmap) ⟨fun _ => false,g.secPerLine,0⟩

structure StartMeta where
  map : Nat → Bool
  secInLine : Nat
  smetaSsec : Nat
  lbaList : Nat → Option Nat

/-- One pass from `retry_smeta`. -/
def StartMeta.put (x : StartMeta) (off : Nat) : StartMeta :=
  ⟨bitmapSet x.map off (lm.smeta * g.secPerPl),subU32 x.secInLine (lm.smeta * g.secPerPl),off,
    fun i => if off ≤ i ∧ i < off + lm.smeta * g.secPerPl then none else x.lbaList i⟩

/-- The write fails `n` times, and each time the next page is tried. -/
def smetaLoop : Nat → Nat → StartMeta → StartMeta
  | 0, off, x => x.put g lm off
  | n + 1, off, x => smetaLoop n (off + g.secPerPl) (x.put g lm off)

/-- For each bad block a page further down is taken. `n` bounds the pages that are left below `off`; without it
the offset would wrap. -/
def emetaLoop : Nat → Nat → Nat → (Nat → Bool) → Option ((Nat → Bool) × Nat)
  | _, off, 0, invalid => some (invalid,off)
  | 0, _, _ + 1, _ => none
  | n + 1, off, k + 1, invalid =>
    if invalid (off - g.secPerPl) then emetaLoop n (off - g.secPerPl) (k + 1) invalid
    else emetaLoop n (off - g.secPerPl) k (bitmapSet invalid (off - g.secPerPl) g.secPerPl)

inductive SetupEnd
  /-- No block is good. -/
  | bad
  | ready (line : Line) (smetaSsec emetaSsec : Nat)

/-- `pblk_line_setup`. `fails` of the writes of the start metadata fail. -/
def pblkLineSetup (fails : Nat) (l : Line) : Option SetupEnd :=
  if g.nrLuns ≤ findNextZeroBit blkBitmap g.nrLuns 0 then some .bad
  else
    let b := badBlocks g lm blkBitmap g.nrLuns
    let x := smetaLoop g lm fails (findNextZeroBit blkBitmap g.nrLuns 0 * g.secPerPl) ⟨b.map,b.secInLine,0,l.lbaList⟩
    let off := g.secPerLine - lm.emeta * g.secPerPl
    (emetaLoop g (off / g.secPerPl) off b.nrBb (bitmapSet x.map off (lm.emeta * g.secPerPl))).map fun y =>
      let secInLine := subU32 x.secInLine (lm.emeta * g.secPerPl)
      .ready { l with secInLine := secInLine, mapBitmap := x.map, invalidBitmap := y.1, lbaList := x.lbaList
                      leftMsecs := secInLine, leftSsecs := secInLine, curSec := x.smetaSsec + lm.smeta * g.secPerPl
                      vsc := secInLine } x.smetaSsec y.2

end Setup

/-! ## Bad blocks -/

section Bad

variable {g : Geo} {lm : MetaPages} {blkBitmap : Nat → Bool}

theorem Geo.bbTemplate_eq :
    g.bbTemplate = bitmapSpread g.secPerPl fun p => p % g.nrLuns == 0 && decide (p < g.pages) := by
  have hrows (n : Nat) :
      (List.range n).foldl (fun bm i => bitmapSet bm (i * (g.nrLuns * g.secPerPl)) g.secPerPl) (fun _ => false) =
        bitmapSpread g.secPerPl fun p => p % g.nrLuns == 0 && decide (p < n * g.nrLuns) := by
    induction n with
    | zero =>
      funext i
      simp [bitmapSpread]
    | succ n ih =>
      have hset := bitmapSet_spread g.pl_pos (fun p => p % g.nrLuns == 0 && decide (p < n * g.nrLuns)) (n * g.nrLuns) 1
      rw [Nat.one_mul] at hset
      rw [List.range_succ,List.foldl_append,List.foldl_cons,List.foldl_nil,ih,← Nat.mul_assoc,hset]
      congr 1
      funext p
      have hpos := g.nrLuns_pos
      rw [bitmapSet,Nat.succ_mul]
      -- in the new row only its first page is added
      by_cases hrow : n * g.nrLuns ≤ p ∧ p < n * g.nrLuns + g.nrLuns
      · obtain ⟨q,rfl⟩ := Nat.exists_eq_add_of_le hrow.1
        have hmod : (n * g.nrLuns + q) % g.nrLuns = q := by
          rw [Nat.add_comm,Nat.add_mul_mod_self_right,Nat.mod_eq_of_lt (by omega)]
        rw [hmod]
        by_cases hq : q = 0
        · simp [hq,hpos]
        · simp [hq]
      · have hout : ¬(n * g.nrLuns ≤ p ∧ p < n * g.nrLuns + 1) := by omega
        have hiff : p < n * g.nrLuns ↔ p < n * g.nrLuns + g.nrLuns := by omega
        simp only [hiff,Bool.or_eq_left_iff_imp,Bool.and_eq_true,decide_eq_true_eq]
        intro h
        exact absurd h hout
  exact hrows g.pgsPerBlk

theorem badBlocks_succ (n : Nat) : badBlocks g lm blkBitmap (n + 1) = (badBlocks g lm blkBitmap n).add g lm blkBitmap n := by
  rw [badBlocks,badBlocks,List.range_succ,List.foldl_append,List.foldl_cons,List.foldl_nil]

/-- The pages of block `n` are those that the shifted template names. -/
theorem sub_mod_eq_zero_iff {n k p : Nat} (hn : n < k) : n ≤ p ∧ (p - n) % k = 0 ↔ p % k = n := by
  constructor
  · rintro ⟨hle,hmod⟩
    obtain ⟨q,rfl⟩ := Nat.exists_eq_add_of_le hle
    rw [Nat.add_sub_cancel_left] at hmod
    rw [Nat.add_mod,hmod,Nat.add_zero,Nat.mod_mod,Nat.mod_eq_of_lt hn]
  · intro hmod
    have hle : n ≤ p := hmod ▸ Nat.mod_le p k
    refine ⟨hle,?_⟩
    rw [← hmod]
    exact Nat.sub_mod_eq_zero_of_mod_eq (Nat.mod_mod p k).symm

/-- The pages of the first `n` blocks that are bad. -/
def Geo.badPages (g : Geo) (blkBitmap : Nat → Bool) (n p : Nat) : Bool :=
  decide (p % g.nrLuns < n) && blkBitmap (p % g.nrLuns) && decide (p < g.pages)

theorem badBlocks_map {n : Nat} (hn : n ≤ g.nrLuns) :
    (badBlocks g lm blkBitmap n).map = bitmapSpread g.secPerPl (g.badPages blkBitmap n) := by
  induction n with
  | zero =>
    funext i
    simp [badBlocks,bitmapSpread,Geo.badPages]
  | succ n ih =>
    rw [badBlocks_succ,BadBlocks.add]
    cases hbit : blkBitmap n with
    | false =>
      rw [if_neg Bool.false_ne_true,ih (by omega)]
      congr 1
      funext p
      rw [Geo.badPages,Geo.badPages]
      by_cases hp : p % g.nrLuns = n
      · simp [hp,hbit]
      · have hiff : p % g.nrLuns < n + 1 ↔ p % g.nrLuns < n := by omega
        simp [hiff]
    | true =>
      rw [if_pos rfl,ih (by omega),g.secPerLine_eq,g.bbTemplate_eq,bitmapShiftLeft_spread g.pl_pos]
      change bitmapSpread g.secPerPl (bitmapOr _ _) = _
      congr 1
      funext p
      have hiff := sub_mod_eq_zero_iff (p := p) (show n < g.nrLuns from hn)
      rw [bitmapOr,bitmapShiftLeft,Geo.badPages,Geo.badPages]
      by_cases hp : p < g.pages
      · have hp' : p - n < g.pages := by omega
        by_cases hmod : p % g.nrLuns = n
        · have hboth := hiff.mpr hmod
          simp [hmod,hbit,hboth.1,hboth.2,hp,hp']
        · have hnone : (decide (n ≤ p) && ((p - n) % g.nrLuns == 0)) = false := by
            by_contra htrue
            simp only [Bool.not_eq_false,Bool.and_eq_true,decide_eq_true_eq,beq_iff_eq] at htrue
            exact hmod (hiff.mp htrue)
          have hlt : p % g.nrLuns < n + 1 ↔ p % g.nrLuns < n := by omega
          simp only [hp,hp',hlt,decide_true,Bool.and_true,hnone,Bool.or_false]
      · simp [hp]

theorem badBlocks_secInLine {n : Nat} (hn : n ≤ g.nrLuns) (hword : g.secPerLine < 2 ^ 32) :
    (badBlocks g lm blkBitmap n).secInLine + g.secPerBlk * bitmapWeight blkBitmap n = g.secPerLine := by
  induction n with
  | zero => rfl
  | succ n ih =>
    have hold := ih (by omega)
    rw [badBlocks_succ,BadBlocks.add,bitmapWeight_succ]
    cases hbit : blkBitmap n with
    | false => simpa using hold
    | true =>
      -- the blocks that are left hold at least one more
      have hle : g.secPerBlk * (bitmapWeight blkBitmap n + 1) ≤ g.secPerLine := by
        have hweight := bitmapWeight_le blkBitmap n
        exact Nat.mul_le_mul_left _ (by omega)
      rw [Nat.mul_succ] at hle
      rw [if_pos rfl,Bool.toNat_true,Nat.mul_succ]
      dsimp only
      rw [subU32_of_le (by omega) (by omega)]
      omega

theorem badBlocks_nrBb (n : Nat) : (badBlocks g lm blkBitmap n).nrBb =
    bitmapWeight (fun i => decide (subU32 g.nrLuns lm.emeta ≤ i) && blkBitmap i) n := by
  induction n with
  | zero => rfl
  | succ n ih =>
    rw [badBlocks_succ,BadBlocks.add,bitmapWeight_succ,← ih]
    by_cases hbb : subU32 g.nrLuns lm.emeta ≤ n
    · cases hbit : blkBitmap n <;> simp [hbb]
    · cases hbit : blkBitmap n <;> simp [hbb]

end Bad

/-! ## Metadata -/

section Meta

variable {g : Geo} {lm : MetaPages}

/-- Each write of the start metadata takes pages of its own: either they are single pages, or none fails. -/
theorem smetaLoop_spec {n p : Nat} {pm : Nat → Bool} {x : StartMeta} (hone : lm.smeta = 1 ∨ n = 0)
    (hmap : x.map = bitmapSpread g.secPerPl pm) (hsecs : (n + lm.smeta) * g.secPerPl ≤ x.secInLine)
    (hword : x.secInLine < 2 ^ 32) :
    (smetaLoop g lm n (p * g.secPerPl) x).map = bitmapSpread g.secPerPl (bitmapSet pm p (n + lm.smeta)) ∧
      (smetaLoop g lm n (p * g.secPerPl) x).secInLine = x.secInLine - (n + lm.smeta) * g.secPerPl ∧
      (smetaLoop g lm n (p * g.secPerPl) x).smetaSsec = (p + n) * g.secPerPl := by
  induction n generalizing p pm x with
  | zero =>
    rw [Nat.zero_add] at hsecs
    rw [smetaLoop,StartMeta.put,hmap,bitmapSet_spread g.pl_pos,Nat.zero_add]
    exact ⟨rfl,subU32_of_le hsecs hword,rfl⟩
  | succ n ih =>
    have hsingle : lm.smeta = 1 := by omega
    rw [hsingle,Nat.add_mul,Nat.add_mul,Nat.one_mul] at hsecs
    have hput : (x.put g lm (p * g.secPerPl)).map = bitmapSpread g.secPerPl (bitmapSet pm p 1) := by
      rw [StartMeta.put,hmap,hsingle,bitmapSet_spread g.pl_pos]
    have hsub : (x.put g lm (p * g.secPerPl)).secInLine = x.secInLine - g.secPerPl := by
      rw [StartMeta.put,hsingle,Nat.one_mul]
      exact subU32_of_le (by omega) hword
    have hrest := ih (p := p + 1) (Or.inl hsingle) hput (by rw [hsub,hsingle,Nat.add_mul,Nat.one_mul]; omega) (by omega)
    rw [Nat.add_mul p,Nat.one_mul,hsub,hsingle] at hrest
    rw [smetaLoop,hrest.1,hrest.2.1,hrest.2.2,hsingle]
    refine ⟨?_,?_,?_⟩
    · congr 1
      funext i
      rw [bitmapSet,bitmapSet,bitmapSet,Bool.or_assoc]
      congr 1
      rw [Bool.eq_iff_iff]
      simp only [Bool.or_eq_true,Bool.and_eq_true,decide_eq_true_eq]
      omega
    · rw [Nat.add_mul,Nat.add_mul (n + 1),Nat.add_mul n]
      omega
    · congr 1
      omega

/-- The search takes the last pages below `q` that are free, as many as there are bad blocks: all pages from
where it stops up to `q` are marked then. -/
theorem emetaLoop_spec {q k : Nat} {pm : Nat → Bool} (hfree : k + bitmapWeight pm q ≤ q) :
    ∃ r, r ≤ q ∧ emetaLoop g q (q * g.secPerPl) k (bitmapSpread g.secPerPl pm) =
        some (bitmapSpread g.secPerPl (bitmapSet pm r (q - r)),r * g.secPerPl) ∧
      k + bitmapWeight pm q = q - r + bitmapWeight pm r ∧ (0 < k → pm r = false) ∧ (k = 0 → r = q) := by
  induction q generalizing k pm with
  | zero =>
    obtain rfl : k = 0 := by omega
    refine ⟨0,Nat.le_refl 0,?_,rfl,by omega,fun _ => rfl⟩
    rw [emetaLoop]
    congr 3
    funext i
    simp [bitmapSet]
  | succ q ih =>
    cases k with
    | zero =>
      refine ⟨q + 1,Nat.le_refl _,?_,by omega,by omega,fun _ => rfl⟩
      rw [emetaLoop]
      congr 3
      funext i
      simp [bitmapSet]
    | succ k =>
      have hoff : (q + 1) * g.secPerPl - g.secPerPl = q * g.secPerPl := by
        rw [Nat.succ_mul,Nat.add_sub_cancel]
      have hbit : bitmapSpread g.secPerPl pm (q * g.secPerPl) = pm q := by
        rw [bitmapSpread,Nat.mul_div_cancel _ g.pl_pos]
      rw [emetaLoop,hoff,hbit]
      rw [bitmapWeight_succ] at hfree ⊢
      cases hpage : pm q with
      | true =>
        rw [hpage,Bool.toNat_true] at hfree
        obtain ⟨r,hr,hloop,hcount,hclear,-⟩ := ih (show k + 1 + bitmapWeight pm q ≤ q by omega)
        refine ⟨r,by omega,?_,by rw [Bool.toNat_true]; omega,fun _ => hclear (by omega),by omega⟩
        rw [if_pos rfl,hloop]
        congr 3
        funext i
        -- the page at `q` was marked before
        by_cases hi : i = q
        · simp [bitmapSet,hi,hpage]
        · rw [bitmapSet,bitmapSet]
          congr 2
          rw [decide_eq_decide]
          omega
      | false =>
        have hsame := bitmapWeight_set_of_le pm 1 (Nat.le_refl q)
        rw [hpage,Bool.toNat_false] at hfree
        obtain ⟨r,hr,hloop,hcount,hclear,hstop⟩ :=
          ih (show k + bitmapWeight (bitmapSet pm q 1) q ≤ q by rw [hsame]; omega)
        rw [hsame,bitmapWeight_set_of_le pm 1 hr] at hcount
        refine ⟨r,by omega,?_,by rw [Bool.toNat_false]; omega,?_,by omega⟩
        · have hset := bitmapSet_spread g.pl_pos pm q 1
          rw [Nat.one_mul] at hset
          rw [if_neg Bool.false_ne_true,hset,hloop]
          congr 3
          funext i
          rw [bitmapSet,bitmapSet,bitmapSet,Bool.or_assoc]
          congr 1
          rw [Bool.eq_iff_iff]
          simp only [Bool.or_eq_true,Bool.and_eq_true,decide_eq_true_eq]
          omega
        · intro _
          by_cases hk : k = 0
          · rw [hstop hk]
            exact hpage
          · have hboth := hclear (by omega)
            rw [bitmapSet,Bool.or_eq_false_iff] at hboth
            exact hboth.1

end Meta

/-! ## The count -/

/-- What the count of `pblk_line_setup` rests on: the pages of the start metadata are on good blocks and below
those of the end metadata, which fit into one row, and there is room for both. -/
structure SetupFits (g : Geo) (lm : MetaPages) (blkBitmap : Nat → Bool) (fails : Nat) : Prop where
  word : g.secPerLine < 2 ^ 32
  emeta : lm.emeta ≤ g.nrLuns
  once : lm.smeta = 1 ∨ fails = 0
  smeta : ∀ j, j < fails + lm.smeta → blkBitmap ((findNextZeroBit blkBitmap g.nrLuns 0 + j) % g.nrLuns) = false
  below : findNextZeroBit blkBitmap g.nrLuns 0 + (fails + lm.smeta) ≤ g.pages - lm.emeta
  room : g.pgsPerBlk * bitmapWeight blkBitmap g.nrLuns + (fails + lm.smeta) + lm.emeta ≤ g.pages

namespace SetupFits

variable {g : Geo} {lm : MetaPages} {blkBitmap : Nat → Bool} {fails : Nat}

/-- The pages that `map_bitmap` has after the start metadata. -/
def usedPages (g : Geo) (lm : MetaPages) (blkBitmap : Nat → Bool) (fails : Nat) : Nat → Bool :=
  bitmapSet (g.badPages blkBitmap g.nrLuns) (findNextZeroBit blkBitmap g.nrLuns 0) (fails + lm.smeta)

theorem badPages_eq {p : Nat} (hp : p < g.pages) : g.badPages blkBitmap g.nrLuns p = blkBitmap (p % g.nrLuns) := by
  simp [Geo.badPages,hp,Nat.mod_lt _ g.nrLuns_pos]

theorem weight_badPages :
    bitmapWeight (g.badPages blkBitmap g.nrLuns) g.pages = g.pgsPerBlk * bitmapWeight blkBitmap g.nrLuns := by
  rw [← bitmapWeight_periodic]
  apply bitmapWeight_congr
  intro p hp
  exact badPages_eq hp

theorem weight_usedPages (h : SetupFits g lm blkBitmap fails) :
    bitmapWeight (usedPages g lm blkBitmap fails) g.pages =
      g.pgsPerBlk * bitmapWeight blkBitmap g.nrLuns + (fails + lm.smeta) := by
  have hbelow := h.below
  have hset := bitmapWeight_set (g.badPages blkBitmap g.nrLuns)
    (show findNextZeroBit blkBitmap g.nrLuns 0 + (fails + lm.smeta) ≤ g.pages by omega)
  have hclear := bitmapWeight_of_clear (g.badPages blkBitmap g.nrLuns) (n := findNextZeroBit blkBitmap g.nrLuns 0)
    (k := fails + lm.smeta) ?_
  · rw [hclear] at hset
    rw [usedPages,← weight_badPages]
    omega
  · intro i hi hi'
    obtain ⟨j,rfl⟩ := Nat.exists_eq_add_of_le hi
    rw [badPages_eq (by omega)]
    exact h.smeta j (by omega)

theorem pages_eq (h : SetupFits g lm blkBitmap fails) : ∃ rows, g.pages = rows * g.nrLuns + g.nrLuns := by
  have hroom := h.room
  have hpos := lm.emeta_pos
  cases hpgs : g.pgsPerBlk with
  | zero =>
    rw [Geo.pages,hpgs,Nat.zero_mul] at hroom
    omega
  | succ rows => exact ⟨rows,by rw [Geo.pages,hpgs,Nat.succ_mul]⟩

theorem nrLuns_lt (h : SetupFits g lm blkBitmap fails) : g.nrLuns < 2 ^ 32 := by
  obtain ⟨rows,hpages⟩ := h.pages_eq
  have hword := h.word
  have hle := Nat.le_mul_of_pos_right g.pages g.pl_pos
  rw [g.secPerLine_eq] at hword
  omega

/-- `emeta_bb` is the first block of the end metadata in the last row. -/
theorem nrBb_eq (h : SetupFits g lm blkBitmap fails) : (badBlocks g lm blkBitmap g.nrLuns).nrBb =
    bitmapWeight (fun i => blkBitmap (g.nrLuns - lm.emeta + i)) lm.emeta := by
  rw [badBlocks_nrBb,subU32_of_le h.emeta h.nrLuns_lt]
  have hsplit := bitmapWeight_add (fun i => decide (g.nrLuns - lm.emeta ≤ i) && blkBitmap i)
    (g.nrLuns - lm.emeta) lm.emeta
  have hnone := bitmapWeight_of_clear (fun i => decide (g.nrLuns - lm.emeta ≤ i) && blkBitmap i) (n := 0)
    (k := g.nrLuns - lm.emeta) ?_
  · rw [Nat.zero_add,bitmapWeight_zero] at hnone
    rw [Nat.sub_add_cancel h.emeta,hnone,Nat.zero_add] at hsplit
    rw [hsplit]
    apply bitmapWeight_congr
    intro i _
    simp
  · intro i _ hi
    have hlow : ¬g.nrLuns - lm.emeta ≤ i := by omega
    simp [hlow]

/-- The bad blocks that `emeta_bb` counts are those where the end metadata would be. -/
theorem weight_last (h : SetupFits g lm blkBitmap fails) : bitmapWeight (usedPages g lm blkBitmap fails) g.pages =
    bitmapWeight (usedPages g lm blkBitmap fails) (g.pages - lm.emeta) + (badBlocks g lm blkBitmap g.nrLuns).nrBb := by
  have hemeta := h.emeta
  have hbelow := h.below
  obtain ⟨rows,hpages⟩ := h.pages_eq
  have hsplit := bitmapWeight_add (usedPages g lm blkBitmap fails) (g.pages - lm.emeta) lm.emeta
  rw [Nat.sub_add_cancel (by omega)] at hsplit
  rw [hsplit,h.nrBb_eq]
  congr 1
  apply bitmapWeight_congr
  intro i hi
  have hmod : (g.pages - lm.emeta + i) % g.nrLuns = g.nrLuns - lm.emeta + i := by
    rw [hpages,show rows * g.nrLuns + g.nrLuns - lm.emeta + i = g.nrLuns - lm.emeta + i + rows * g.nrLuns by omega,
      Nat.add_mul_mod_self_right,Nat.mod_eq_of_lt (by omega)]
  have hout : ¬g.pages - lm.emeta + i < findNextZeroBit blkBitmap g.nrLuns 0 + (fails + lm.smeta) := by omega
  rw [usedPages,bitmapSet,badPages_eq (by omega),hmod]
  simp [hout]

theorem firstGood_lt (h : SetupFits g lm blkBitmap fails) : findNextZeroBit blkBitmap g.nrLuns 0 < g.nrLuns := by
  have hsmeta := lm.smeta_pos
  have hgood := h.smeta 0 (by omega)
  exact (findNextZeroBit_spec ⟨_,Nat.zero_le _,Nat.mod_lt _ g.nrLuns_pos,hgood⟩).2.1

/-- The pages below the start metadata are bad. -/
theorem used_of_lt (h : SetupFits g lm blkBitmap fails) {p : Nat}
    (hp : p < findNextZeroBit blkBitmap g.nrLuns 0 + (fails + lm.smeta)) : usedPages g lm blkBitmap fails p = true := by
  by_cases hlow : findNextZeroBit blkBitmap g.nrLuns 0 ≤ p
  · simp [usedPages,bitmapSet,hlow,hp]
  · have hfirst := h.firstGood_lt
    have hbelow := h.below
    have hsmeta := lm.smeta_pos
    have hgood := h.smeta 0 (by omega)
    have hbad := (findNextZeroBit_spec ⟨_,Nat.zero_le _,Nat.mod_lt _ g.nrLuns_pos,hgood⟩).2.2.2 p (Nat.zero_le p) (by omega)
    rw [usedPages,bitmapSet,badPages_eq (by omega),Nat.mod_eq_of_lt (by omega),hbad,Bool.true_or]

/-- The sectors that are left when the bad blocks and the metadata are taken out. -/
theorem secs_eq (h : SetupFits g lm blkBitmap fails) : (badBlocks g lm blkBitmap g.nrLuns).secInLine =
    (g.pages - g.pgsPerBlk * bitmapWeight blkBitmap g.nrLuns) * g.secPerPl := by
  have hsecs : (badBlocks g lm blkBitmap g.nrLuns).secInLine + _ = _ := badBlocks_secInLine (Nat.le_refl g.nrLuns) h.word
  rw [g.secPerLine_eq,Geo.secPerBlk,Nat.mul_assoc,Nat.mul_comm g.secPerPl] at hsecs
  rw [Nat.sub_mul]
  omega

/-- What a line is set up to. The end metadata gets the free pages from `r` on. -/
structure Ready (g : Geo) (lm : MetaPages) (blkBitmap : Nat → Bool) (fails : Nat) (l : Line) (r : Nat) : Prop where
  map : l.mapBitmap = bitmapSpread g.secPerPl (usedPages g lm blkBitmap fails)
  invalid : l.invalidBitmap = bitmapSpread g.secPerPl (bitmapSet (bitmapSet (usedPages g lm blkBitmap fails)
    (g.pages - lm.emeta) lm.emeta) r (g.pages - lm.emeta - r))
  secs : l.secInLine = (g.pages - bitmapWeight (usedPages g lm blkBitmap fails) g.pages - lm.emeta) * g.secPerPl
  left : l.vsc = l.secInLine ∧ l.leftMsecs = l.secInLine ∧ l.leftSsecs = l.secInLine
  curSec : l.curSec = (findNextZeroBit blkBitmap g.nrLuns 0 + (fails + lm.smeta)) * g.secPerPl
  above : findNextZeroBit blkBitmap g.nrLuns 0 + (fails + lm.smeta) ≤ r
  below : r ≤ g.pages - lm.emeta
  count : bitmapWeight (usedPages g lm blkBitmap fails) g.pages =
    g.pages - lm.emeta - r + bitmapWeight (usedPages g lm blkBitmap fails) r

theorem pblkLineSetup_ready (h : SetupFits g lm blkBitmap fails) (l : Line) :
    ∃ l' r, pblkLineSetup g lm blkBitmap fails l =
        some (.ready l' ((findNextZeroBit blkBitmap g.nrLuns 0 + fails) * g.secPerPl) (r * g.secPerPl)) ∧
      Ready g lm blkBitmap fails l' r := by
  have hroom := h.room
  have hweight := h.weight_usedPages
  have hlast := h.weight_last
  have hword := h.word
  rw [g.secPerLine_eq] at hword
  have hsecs := h.secs_eq
  have hle : (fails + lm.smeta) * g.secPerPl ≤ (badBlocks g lm blkBitmap g.nrLuns).secInLine := by
    rw [hsecs]
    exact Nat.mul_le_mul_right _ (by omega)
  have hlt : (badBlocks g lm blkBitmap g.nrLuns).secInLine < 2 ^ 32 := by
    rw [hsecs]
    exact Nat.lt_of_le_of_lt (Nat.mul_le_mul_right _ (Nat.sub_le _ _)) hword
  obtain ⟨hmap,hsub,hssec⟩ := smetaLoop_spec (p := findNextZeroBit blkBitmap g.nrLuns 0)
    (x := ⟨(badBlocks g lm blkBitmap g.nrLuns).map,(badBlocks g lm blkBitmap g.nrLuns).secInLine,0,l.lbaList⟩) h.once
    (badBlocks_map (Nat.le_refl _)) hle hlt
  -- the pages below the end metadata are as they were
  have hsame := bitmapWeight_set_of_le (usedPages g lm blkBitmap fails) lm.emeta (Nat.le_refl (g.pages - lm.emeta))
  have hfree : (badBlocks g lm blkBitmap g.nrLuns).nrBb + bitmapWeight (bitmapSet (usedPages g lm blkBitmap fails)
      (g.pages - lm.emeta) lm.emeta) (g.pages - lm.emeta) ≤ g.pages - lm.emeta := by
    rw [hsame]
    omega
  obtain ⟨r,hr,hloop,hcount,hclear,hstop⟩ := emetaLoop_spec (g := g) hfree
  rw [hsame,bitmapWeight_set_of_le _ _ hr] at hcount
  have hfirst := h.firstGood_lt
  have hoff : g.secPerLine - lm.emeta * g.secPerPl = (g.pages - lm.emeta) * g.secPerPl := by
    rw [g.secPerLine_eq,Nat.sub_mul]
  have hleft : subU32 ((badBlocks g lm blkBitmap g.nrLuns).secInLine - (fails + lm.smeta) * g.secPerPl)
      (lm.emeta * g.secPerPl) =
        (g.pages - bitmapWeight (usedPages g lm blkBitmap fails) g.pages - lm.emeta) * g.secPerPl := by
    have hrest : (badBlocks g lm blkBitmap g.nrLuns).secInLine - (fails + lm.smeta) * g.secPerPl =
        (g.pages - bitmapWeight (usedPages g lm blkBitmap fails) g.pages) * g.secPerPl := by
      rw [hsecs,← Nat.sub_mul,hweight,Nat.sub_sub]
    rw [hrest,subU32_of_le (Nat.mul_le_mul_right _ (by omega)) (by omega),← Nat.sub_mul]
  rw [pblkLineSetup,if_neg (by omega)]
  dsimp only
  generalize smetaLoop g lm fails _ _ = x at hmap hsub hssec ⊢
  rw [hmap,hsub,hssec,hoff,Nat.mul_div_cancel _ g.pl_pos,bitmapSet_spread g.pl_pos,← usedPages,hloop]
  refine ⟨_,r,rfl,rfl,rfl,hleft,⟨rfl,rfl,rfl⟩,?_,?_,hr,by omega⟩
  · dsimp only
    rw [← Nat.add_mul,Nat.add_assoc]
  · by_cases hbb : (badBlocks g lm blkBitmap g.nrLuns).nrBb = 0
    · rw [hstop hbb]
      exact h.below
    · have hpage := hclear (by omega)
      rw [bitmapSet,Bool.or_eq_false_iff] at hpage
      by_contra hlt
      rw [h.used_of_lt (by omega)] at hpage
      exact Bool.noConfusion hpage.1

/-- Every page of the end metadata is marked once. -/
theorem Ready.weight_invalid (h : SetupFits g lm blkBitmap fails) {l : Line} {r : Nat}
    (hready : Ready g lm blkBitmap fails l r) : bitmapWeight l.invalidBitmap g.secPerLine + l.vsc = g.secPerLine := by
  have hbelow := hready.below
  have hcount := hready.count
  have hroom := h.room
  have hweight := h.weight_usedPages
  have hlast := bitmapWeight_set (usedPages g lm blkBitmap fails)
    (show g.pages - lm.emeta + lm.emeta ≤ g.pages by omega)
  rw [Nat.sub_add_cancel (by omega)] at hlast
  have hrest := bitmapWeight_set (bitmapSet (usedPages g lm blkBitmap fails) (g.pages - lm.emeta) lm.emeta)
    (show r + (g.pages - lm.emeta - r) ≤ g.pages by omega)
  rw [Nat.add_sub_cancel' hbelow,bitmapWeight_set_of_le _ _ (Nat.le_refl _),bitmapWeight_set_of_le _ _ hbelow] at hrest
  rw [hready.left.1,hready.secs,hready.invalid,g.secPerLine_eq,bitmapWeight_spread g.pl_pos,← Nat.add_mul]
  congr 1
  omega

end SetupFits

/-- Four blocks of three pages; the first and the last block are bad. -/
def smallGeo : Geo where
  nrChnls := 2
  lunsPerChnl := 2
  secPerPl := 2
  pgsPerBlk := 3
  chnls_pos := Nat.zero_lt_two
  luns_pos := Nat.zero_lt_two
  pl_pos := Nat.zero_lt_two

def smallMeta : MetaPages := ⟨1,2,Nat.zero_lt_one,Nat.zero_lt_two⟩

def smallBad (bit : Nat) : Bool := bit == 0 || bit == 3

theorem smallBad_fits : SetupFits smallGeo smallMeta smallBad 0 where
  word := by decide
  emeta := by decide
  once := Or.inl rfl
  smeta := by decide
  below := by decide
  room := by decide

example : (pblkLineSetup smallGeo smallMeta smallBad 0 (smallLines.line 0)).map
    (fun x => match x with
      | .bad => (0,0,0)
      | .ready l' smetaSsec emetaSsec => (l'.vsc,smetaSsec,emetaSsec)) = some (6,2,18) := by decide +kernel

end Sdssd.Pblk
