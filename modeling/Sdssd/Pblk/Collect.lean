import Sdssd.Pblk.ReadBack

/-!
# The collection of a line

`pblk_gc_line_ws` goes through the sectors of a line that are not marked invalid and hands the lbas
written there to `pblk_gc_move_valid_secs`, which reads what the map still leads to and writes it to the
buffer. The line is put when as many sectors have been handed over as were valid at the start.
-/

namespace Sdssd.Pblk

open Framework

variable {δ : Type}

/-- The values of `NVM_IO_X`. -/
def NvmIo.code : NvmIo → Nat
  | .ok => 0
  | .done => 2
  | .err => 3

/-- `pblk_lookup_l2p_rand` with its `BUG_ON`; `none` stands for `ADDR_EMPTY`. -/
def pblkLookupL2pRand (cfg : Config) (m : Map) : List (Option Nat) → Option (List PpaAddr)
  | [] => some []
  | none :: lbas => (pblkLookupL2pRand cfg m lbas).map (.empty :: ·)
  | some lba :: lbas =>
    if lba < cfg.nrSecs then (pblkLookupL2pRand cfg m lbas).map (m.transMap lba :: ·) else none

/-- `read_ppalist_rq_gc`: the lbas that are still on the line, with their addresses. -/
def readPpalistRqGc (line : Nat) : List (Option Nat) → List PpaAddr → List (Option Nat) × List DevAddr
  | lba :: lbas, p :: ps =>
    let r := readPpalistRqGc line lbas ps
    match p with
    | .dev a => if a.line = line then (lba :: r.1,a :: r.2) else (none :: r.1,r.2)
    | _ => (none :: r.1,r.2)
  | _, _ => ([],[])

/-- `read_rq_gc`. A sector that is found is answered with `NVM_IO_OK`, not with a number of sectors. -/
def readRqGc (cfg : Config) (m : Map) (line : Nat) : Option Nat → Option (Nat × Option DevAddr)
  | none => some (0,none)
  | some lba =>
    if lba < cfg.nrSecs then
      match m.transMap lba with
      | .dev a => if a.line = line then some (NvmIo.ok.code,some a) else some (0,none)
      | _ => some (0,none)
    else none

/-- What `pblk_submit_read_gc` gives back: `lba_list`, `data` and `secs_to_gc`. -/
structure GcRead (δ : Type) where
  lbas : List (Option Nat)
  data : List δ
  secsToGc : Nat
  deriving DecidableEq, Repr

/-- `pblk_submit_read_gc` when nothing fails. -/
def pblkSubmitReadGc (cfg : Config) (m : Map) (dev : DevAddr → δ) (line : Nat) (lbas : List (Option Nat)) :
    Option (GcRead δ) :=
  if 1 < lbas.length then
    (pblkLookupL2pRand cfg m lbas).map fun ps =>
      let r := readPpalistRqGc line lbas ps
      ⟨r.1,r.2.map dev,r.2.length⟩
  else
    (readRqGc cfg m line (lbas.head?.join)).map fun r =>
      ⟨lbas,if r.1 = 0 then [] else r.2.toList.map dev,r.1⟩

/-- `pblk_gc_move_valid_secs` from `off` on: what is written to the buffer, and how many sectors were gone
through. `ok` says whether the read at an offset succeeds. -/
def gcMove (cfg : Config) (m : Map) (dev : DevAddr → δ) (ok : Bool) (line : Nat) :
    Nat → Nat → List (Option Nat) → Option (List (GcRead δ) × Nat)
  | 0, off, _ => some ([],off)
  | n + 1, off, lbas =>
    if lbas.length = 0 ∨ ok = false then some ([],off)
    else
      let chunk := lbas.take cfg.maxWritePgs
      (pblkSubmitReadGc cfg m dev line chunk).bind fun r =>
        (gcMove cfg m dev ok line n (off + chunk.length) (lbas.drop cfg.maxWritePgs)).map fun x =>
          (if r.secsToGc = 0 then x.1 else r :: x.1,x.2)

def pblkGcMoveValidSecs (cfg : Config) (m : Map) (dev : DevAddr → δ) (ok : Bool) (line : Nat)
    (lbas : List (Option Nat)) : Option (List (GcRead δ) × Nat) :=
  gcMove cfg m dev ok line lbas.length 0 lbas

/-- What a collection depends on. The invalid bitmap stays as it is, because `pblk_page_invalidate` leaves a
line alone while it is collected; the map may be another one in each round. -/
structure GcEnv (δ : Type) where
  invalid : Nat → Bool
  map : Nat → Map
  ok : Nat → Bool
  dev : DevAddr → δ
  /-- The lbas that `emeta` has for the sectors of the line. -/
  lbaList : Nat → Option Nat
  emetaSsec : Nat

variable (cfg : Config) (env : GcEnv δ)

/-- The inner loop of `pblk_gc_line_ws`: at most `k` lbas from sector `start`, and the sector to go on with. -/
def gcScan : Nat → Nat → List (Option Nat) × Nat
  | 0, start => ([],start)
  | k + 1, start =>
    let bit := findNextZeroBit env.invalid cfg.secPerLine start
    if env.emetaSsec < bit then ([],bit + 1)
    else
      let r := gcScan k (bit + 1)
      (env.lbaList bit :: r.1,r.2)

inductive GcEnd
  /-- `kref_put` of the line, after which it is erased. -/
  | put
  | putBack
  | bug
  deriving DecidableEq, Repr

/-- The loop at `next_rq` of `pblk_gc_line_ws`, for `secLeft` sectors. -/
def gcRounds (line : Nat) : Nat → Nat → Nat → Int → Option (GcEnd × List (GcRead δ))
  | 0, _, _, _ => none
  | n + 1, round, start, secLeft =>
    let scan := gcScan cfg env cfg.maxWritePgs start
    match pblkGcMoveValidSecs cfg (env.map round) env.dev (env.ok round) line scan.1 with
    | none => some (.bug,[])
    | some (reads,moved) =>
      if moved ≠ scan.1.length then some (.putBack,reads)
      else
        let left := secLeft - moved
        if 0 < left then
          (gcRounds line n (round + 1) scan.2 left).map fun x => (x.1,reads ++ x.2)
        else if left ≠ 0 then some (.bug,reads)
        else some (.put,reads)

/-- `pblk_gc_line_ws` for a line with `vsc` valid sectors whose metadata could be read; `n` bounds the rounds. -/
def pblkGcLineWs (n line vsc : Nat) : Option (GcEnd × List (GcRead δ)) :=
  if vsc = 0 then some (.put,[]) else gcRounds cfg env line n 0 0 vsc

/-! ## One request -/

variable {cfg env}

/-- The sector to copy for an lba of the line: what the map leads to, if it still leads to the line. -/
def liveSector (m : Map) (dev : DevAddr → δ) (line : Nat) : Option Nat → Option (Sector δ)
  | none => none
  | some lba =>
    match m.transMap lba with
    | .dev a => if a.line = line then some ⟨lba,dev a,.gc line⟩ else none
    | _ => none

/-- The lbas of a request are in range. -/
def InRange (cfg : Config) (lbas : List (Option Nat)) : Prop := ∀ lba, some lba ∈ lbas → lba < cfg.nrSecs

theorem InRange.of_cons {x : Option Nat} {lbas : List (Option Nat)} (h : InRange cfg (x :: lbas)) : InRange cfg lbas :=
  fun lba hmem => h lba (List.mem_cons_of_mem x hmem)

/-- The loop over several sectors keeps exactly the live ones, in order. -/
theorem readPpalistRqGc_live (m : Map) (dev : DevAddr → δ) (line : Nat) {lbas : List (Option Nat)}
    (h : InRange cfg lbas) : ∃ ps, pblkLookupL2pRand cfg m lbas = some ps ∧
      gcSectors line (readPpalistRqGc line lbas ps).1 ((readPpalistRqGc line lbas ps).2.map dev) =
        lbas.filterMap (liveSector m dev line) ∧
      (readPpalistRqGc line lbas ps).2.length = (lbas.filterMap (liveSector m dev line)).length := by
  induction lbas with
  | nil => exact ⟨[],rfl,rfl,rfl⟩
  | cons x lbas ih =>
    obtain ⟨ps,hps,hsectors,hlength⟩ := ih h.of_cons
    cases x with
    | none =>
      refine ⟨.empty :: ps,by rw [pblkLookupL2pRand,hps,Option.map_some],?_⟩
      rw [List.filterMap_cons_none rfl]
      exact ⟨hsectors,hlength⟩
    | some lba =>
      have hlba := h lba List.mem_cons_self
      refine ⟨m.transMap lba :: ps,by rw [pblkLookupL2pRand,if_pos hlba,hps,Option.map_some],?_⟩
      cases hpos : m.transMap lba with
      | empty => simpa [readPpalistRqGc,gcSectors,liveSector,hpos] using ⟨hsectors,hlength⟩
      | cacheline pos => simpa [readPpalistRqGc,gcSectors,liveSector,hpos] using ⟨hsectors,hlength⟩
      | dev a =>
        by_cases hline : a.line = line
        · simpa [readPpalistRqGc,gcSectors,liveSector,hpos,hline] using ⟨hsectors,hlength⟩
        · simpa [readPpalistRqGc,gcSectors,liveSector,hpos,hline] using ⟨hsectors,hlength⟩

theorem pblkSubmitReadGc_many (m : Map) (dev : DevAddr → δ) (line : Nat) {lbas : List (Option Nat)}
    (h : InRange cfg lbas) (hmany : 1 < lbas.length) : ∃ r, pblkSubmitReadGc cfg m dev line lbas = some r ∧
      gcSectors line r.lbas r.data = lbas.filterMap (liveSector m dev line) ∧
      r.secsToGc = (lbas.filterMap (liveSector m dev line)).length := by
  obtain ⟨ps,hps,hsectors,hlength⟩ := readPpalistRqGc_live m dev line h
  refine ⟨_,by rw [pblkSubmitReadGc,if_pos hmany,hps,Option.map_some],hsectors,hlength⟩

/-- A request for one sector comes back with none. -/
theorem pblkSubmitReadGc_one {m : Map} {dev : DevAddr → δ} {line : Nat} {lbas : List (Option Nat)}
    (h : InRange cfg lbas) (hone : lbas.length = 1) :
    ∃ r, pblkSubmitReadGc cfg m dev line lbas = some r ∧ r.secsToGc = 0 := by
  obtain ⟨x,rfl⟩ := List.length_eq_one_iff.mp hone
  have hread : ∃ a, readRqGc cfg m line x = some (0,a) := by
    cases x with
    | none => exact ⟨none,rfl⟩
    | some lba =>
      rw [readRqGc,if_pos (h lba List.mem_cons_self)]
      split
      · split
        · exact ⟨_,rfl⟩
        · exact ⟨none,rfl⟩
      · exact ⟨none,rfl⟩
  obtain ⟨a,ha⟩ := hread
  refine ⟨_,by rw [pblkSubmitReadGc,if_neg (by simp),List.head?_cons,Option.join_some,ha,Option.map_some],rfl⟩

/-- The sectors that go to the buffer. -/
def written (line : Nat) (reads : List (GcRead δ)) : List (Sector δ) :=
  reads.flatMap fun r => gcSectors line r.lbas r.data

/-- A request of at most `max_write_pgs` sectors is gone through as a whole, and what is live in it is written
unless it is a single sector. -/
theorem pblkGcMoveValidSecs_chunk (m : Map) (dev : DevAddr → δ) (line : Nat) {lbas : List (Option Nat)}
    (h : InRange cfg lbas) (hmax : lbas.length ≤ cfg.maxWritePgs) :
    ∃ reads, pblkGcMoveValidSecs cfg m dev true line lbas = some (reads,lbas.length) ∧
      written line reads = if lbas.length = 1 then [] else lbas.filterMap (liveSector m dev line) := by
  unfold pblkGcMoveValidSecs
  cases hlen : lbas.length with
  | zero =>
    rw [List.length_eq_zero_iff] at hlen
    subst hlen
    exact ⟨[],rfl,rfl⟩
  | succ n =>
    have htake : lbas.take cfg.maxWritePgs = lbas := List.take_of_length_le hmax
    have hdrop : lbas.drop cfg.maxWritePgs = [] := List.drop_eq_nil_of_le hmax
    have hrest (off : Nat) : gcMove cfg m dev true line n off [] = some ([],off) := by
      cases n <;> rfl
    have hmove : gcMove cfg m dev true line (n + 1) 0 lbas = (pblkSubmitReadGc cfg m dev line lbas).map fun r =>
        (if r.secsToGc = 0 then [] else [r],n + 1) := by
      rw [gcMove,if_neg (by simp [hlen]),htake,hdrop]
      dsimp only
      rw [Nat.zero_add,hlen]
      cases pblkSubmitReadGc cfg m dev line lbas with
      | none => rfl
      | some r => rw [Option.bind_some,hrest,Option.map_some,Option.map_some]
    rw [hmove]
    by_cases hone : n = 0
    · subst hone
      obtain ⟨r,hr,hsecs⟩ := pblkSubmitReadGc_one h hlen
      refine ⟨[],?_,rfl⟩
      rw [hr,Option.map_some,if_pos hsecs]
    · obtain ⟨r,hr,hsectors,hsecs⟩ := pblkSubmitReadGc_many m dev line h (by omega)
      refine ⟨if r.secsToGc = 0 then [] else [r],by rw [hr,Option.map_some],?_⟩
      have hne : ¬(n + 1 = 1) := by omega
      rw [if_neg hne,← hsectors]
      split
      · rename_i hzero
        rw [hsecs,List.length_eq_zero_iff] at hzero
        rw [hsectors,hzero]
        rfl
      · exact List.append_nil _

/-! ## The sectors of a line -/

theorem gcScan_inRange (h : ∀ i lba, env.lbaList i = some lba → lba < cfg.nrSecs) (k start : Nat) :
    InRange cfg (gcScan cfg env k start).1 := by
  induction k generalizing start with
  | zero => exact nofun
  | succ k ih =>
    rw [gcScan]
    dsimp only
    split
    · exact nofun
    · intro lba hmem
      rcases List.mem_cons.mp hmem with hfirst | hrest
      · exact h _ lba hfirst.symm
      · exact ih _ lba hrest

/-- The sectors from `start` to `emeta_ssec` that are not marked. -/
def validSecs (env : GcEnv δ) (start : Nat) : List Nat :=
  (List.range' start (env.emetaSsec + 1 - start)).filter fun i => !env.invalid i

theorem validSecs_eq_nil {start : Nat} (h : env.emetaSsec < start) : validSecs env start = [] := by
  rw [validSecs,show env.emetaSsec + 1 - start = 0 by omega]
  rfl

theorem validSecs_cons {start : Nat} (h : start ≤ env.emetaSsec) : validSecs env start =
    if env.invalid start then validSecs env (start + 1) else start :: validSecs env (start + 1) := by
  have hlen : env.emetaSsec + 1 - start = env.emetaSsec + 1 - (start + 1) + 1 := by omega
  rw [validSecs,hlen,List.range'_succ,List.filter_cons]
  cases env.invalid start <;> rfl

/-- A search comes to the next of them. -/
theorem validSecs_search (hsize : env.emetaSsec < cfg.secPerLine) (start : Nat) :
    validSecs env start = if env.emetaSsec < findNextZeroBit env.invalid cfg.secPerLine start then []
      else findNextZeroBit env.invalid cfg.secPerLine start ::
        validSecs env (findNextZeroBit env.invalid cfg.secPerLine start + 1) := by
  induction hk : cfg.secPerLine - start generalizing start with
  | zero =>
    have hend : findNextZeroBit env.invalid cfg.secPerLine start = cfg.secPerLine := by
      rw [findNextZeroBit,hk]
      rfl
    rw [validSecs_eq_nil (by omega),hend,if_pos hsize]
  | succ k ih =>
    cases hbit : env.invalid start with
    | false =>
      rw [findNextZeroBit_of_clear (by omega) hbit]
      by_cases hle : start ≤ env.emetaSsec
      · rw [if_neg (by omega),validSecs_cons hle,hbit]
        rfl
      · rw [if_pos (by omega),validSecs_eq_nil (by omega)]
    | true =>
      rw [findNextZeroBit_of_set (by omega) hbit,← ih (start + 1) (by omega)]
      by_cases hle : start ≤ env.emetaSsec
      · rw [validSecs_cons hle,hbit]
        rfl
      · rw [validSecs_eq_nil (by omega),validSecs_eq_nil (by omega)]

theorem gcScan_spec (hsize : env.emetaSsec < cfg.secPerLine) (k start : Nat) :
    (gcScan cfg env k start).1 = ((validSecs env start).take k).map env.lbaList ∧
      validSecs env (gcScan cfg env k start).2 = (validSecs env start).drop k := by
  induction k generalizing start with
  | zero => exact ⟨rfl,rfl⟩
  | succ k ih =>
    have hsearch := validSecs_search hsize start
    rw [gcScan]
    dsimp only
    split
    · rename_i hend
      rw [if_pos hend] at hsearch
      rw [hsearch]
      exact ⟨rfl,validSecs_eq_nil (Nat.lt_succ_of_lt hend)⟩
    · rename_i hend
      rw [if_neg hend] at hsearch
      rw [hsearch]
      obtain ⟨hlist,hrest⟩ := ih (findNextZeroBit env.invalid cfg.secPerLine start + 1)
      refine ⟨?_,hrest⟩
      rw [List.take_succ_cons,List.map_cons,← hlist]

/-- How many of `n` sectors are read: the last one is not if it is alone in its request. -/
def secsRead (max n : Nat) : Nat := if n % max = 1 then n - 1 else n

theorem secsRead_add {max n : Nat} (hmax : 1 < max) : secsRead max (n + max) = secsRead max n + max := by
  unfold secsRead
  rw [Nat.add_mod_right]
  split
  · rename_i hone
    have : n ≠ 0 := by
      rintro rfl
      rw [Nat.zero_mod] at hone
      cases hone
    omega
  · rfl

theorem secsRead_of_le {max n : Nat} (hmax : 1 < max) (hle : n ≤ max) : secsRead max n = if n = 1 then 0 else n := by
  unfold secsRead
  rcases Nat.lt_or_eq_of_le hle with hlt | rfl
  · rw [Nat.mod_eq_of_lt hlt]
    split
    · omega
    · rfl
  · rw [Nat.mod_self,if_neg Nat.zero_ne_one,if_neg (by omega)]

/-- What is to be copied of `secs`, the first of which is the `k`-th sector handed over. Each request looks its
sectors up in the map of its round. -/
def copies (cfg : Config) (env : GcEnv δ) (line k : Nat) (secs : List Nat) : List (Sector δ) :=
  (secs.zipIdx k).filterMap fun x => liveSector (env.map (x.2 / cfg.maxWritePgs)) env.dev line (env.lbaList x.1)

theorem copies_append {line k : Nat} {xs ys : List Nat} :
    copies cfg env line k (xs ++ ys) = copies cfg env line k xs ++ copies cfg env line (k + xs.length) ys := by
  rw [copies,List.zipIdx_append,List.filterMap_append]
  rfl

/-- The sectors of one round. -/
theorem copies_round {line round k : Nat} {xs : List Nat} (hlow : round * cfg.maxWritePgs ≤ k)
    (hhigh : k + xs.length ≤ (round + 1) * cfg.maxWritePgs) :
    copies cfg env line k xs = (xs.map env.lbaList).filterMap (liveSector (env.map round) env.dev line) := by
  induction xs generalizing k with
  | nil => rfl
  | cons x xs ih =>
    rw [List.length_cons] at hhigh
    have hround : k / cfg.maxWritePgs = round := Nat.div_eq_of_lt_le hlow (by omega)
    have hrest := @ih (k + 1) (by omega) (by omega)
    rw [copies] at hrest ⊢
    rw [List.zipIdx_cons,List.map_cons,List.filterMap_cons,List.filterMap_cons,hround,hrest]

theorem written_append {line : Nat} {xs ys : List (GcRead δ)} :
    written line (xs ++ ys) = written line xs ++ written line ys := List.flatMap_append ..

/-- Every round but the last takes `max_write_pgs` sectors. -/
theorem gcRounds_put (hsize : env.emetaSsec < cfg.secPerLine) (hmax : 1 < cfg.maxWritePgs)
    (hok : ∀ r, env.ok r = true) (hrange : ∀ i lba, env.lbaList i = some lba → lba < cfg.nrSecs) (line : Nat)
    {n round start : Nat} (hpos : validSecs env start ≠ []) (hn : (validSecs env start).length ≤ n) :
    ∃ reads, gcRounds cfg env line n round start (validSecs env start).length = some (.put,reads) ∧
      written line reads = copies cfg env line (round * cfg.maxWritePgs)
        ((validSecs env start).take (secsRead cfg.maxWritePgs (validSecs env start).length)) := by
  induction n generalizing round start with
  | zero =>
    rw [Nat.le_zero,List.length_eq_zero_iff] at hn
    exact absurd hn hpos
  | succ n ih =>
    obtain ⟨hlist,hrest⟩ := gcScan_spec hsize cfg.maxWritePgs start
    have hrangeList := gcScan_inRange hrange cfg.maxWritePgs start
    generalize validSecs env start = secs at *
    have hlength : (gcScan cfg env cfg.maxWritePgs start).1.length = min cfg.maxWritePgs secs.length := by
      rw [hlist,List.length_map,List.length_take]
    obtain ⟨reads,hmove,hwritten⟩ := pblkGcMoveValidSecs_chunk (env.map round) env.dev line hrangeList (by omega)
    rw [gcRounds]
    dsimp only
    rw [hok,hmove]
    dsimp only
    rw [if_neg (by simp),hlength]
    rw [hlength,hlist] at hwritten
    have hround : copies cfg env line (round * cfg.maxWritePgs) (secs.take cfg.maxWritePgs) =
        ((secs.take cfg.maxWritePgs).map env.lbaList).filterMap (liveSector (env.map round) env.dev line) := by
      apply copies_round (Nat.le_refl _)
      rw [List.length_take,Nat.add_mul]
      omega
    rw [← hround] at hwritten
    by_cases hlast : secs.length ≤ cfg.maxWritePgs
    · rw [Nat.min_eq_right hlast] at hwritten ⊢
      rw [if_neg (by omega),if_neg (by omega)]
      refine ⟨reads,rfl,?_⟩
      rw [hwritten,List.take_of_length_le hlast,secsRead_of_le hmax hlast]
      split
      · rfl
      · rw [List.take_length]
    · rw [Nat.min_eq_left (by omega)] at hwritten ⊢
      have hlen : secs.length = (secs.drop cfg.maxWritePgs).length + cfg.maxWritePgs := by
        rw [List.length_drop]
        omega
      have hne : validSecs env (gcScan cfg env cfg.maxWritePgs start).2 ≠ [] := by
        intro hnil
        rw [← hrest,hnil,List.length_nil] at hlen
        omega
      obtain ⟨reads',hrounds,hwritten'⟩ := @ih (round + 1) _ hne (by rw [hrest]; omega)
      rw [hrest] at hrounds hwritten'
      have hleft : (secs.length : Int) - cfg.maxWritePgs = (secs.drop cfg.maxWritePgs).length := by omega
      rw [hleft,if_pos (by omega),hrounds]
      refine ⟨reads ++ reads',rfl,?_⟩
      rw [if_neg (by omega)] at hwritten
      have htake : (secs.take cfg.maxWritePgs).length = cfg.maxWritePgs := by
        rw [List.length_take]
        omega
      rw [written_append,hwritten,hwritten',hlen,secsRead_add hmax,Nat.add_comm (secsRead _ _),List.take_add,
        copies_append,htake,Nat.add_one_mul]

/-- A line is put after each of its valid sectors was handed over, in order and once. What the map leads to at
that moment is copied, except for the last sector when it is alone in its request: the line is erased with it. -/
theorem gc_line_copies_live (hsize : env.emetaSsec < cfg.secPerLine) (hmax : 1 < cfg.maxWritePgs)
    (hok : ∀ r, env.ok r = true) (hrange : ∀ i lba, env.lbaList i = some lba → lba < cfg.nrSecs) (line : Nat)
    {n vsc : Nat} (hvsc : vsc = (validSecs env 0).length) (hn : vsc ≤ n) :
    ∃ reads, pblkGcLineWs cfg env n line vsc = some (.put,reads) ∧
      written line reads = copies cfg env line 0 ((validSecs env 0).take (secsRead cfg.maxWritePgs vsc)) := by
  subst hvsc
  unfold pblkGcLineWs
  by_cases hzero : (validSecs env 0).length = 0
  · rw [if_pos hzero]
    rw [List.length_eq_zero_iff] at hzero
    refine ⟨[],rfl,?_⟩
    rw [hzero,List.take_nil]
    rfl
  · rw [if_neg hzero]
    obtain ⟨reads,hput,hwritten⟩ := @gcRounds_put δ cfg env hsize hmax hok hrange line n 0 0
      (fun hnil => hzero (by rw [hnil]; rfl)) hn
    rw [Nat.zero_mul] at hwritten
    exact ⟨reads,hput,hwritten⟩

/-- Eight sectors of which 1, 2 and 4 are valid; everything is still where the line has it. -/
def smallGc : GcEnv Nat where
  invalid := fun i => !([1,2,4].contains i)
  map := fun _ => ⟨fun lba => .dev ⟨0,lba⟩,smallLines⟩
  ok := fun _ => true
  dev := fun a => 10 + a.paddr
  lbaList := fun i => if i < 8 then some i else none
  emetaSsec := 7

theorem smallGc_range (i lba : Nat) (h : smallGc.lbaList i = some lba) : lba < smallConfig.nrSecs := by
  simp only [smallGc,Option.ite_none_right_eq_some,Option.some.injEq] at h
  change lba < 16
  omega

theorem gc_line_copies_live_small : ∃ reads, pblkGcLineWs smallConfig smallGc 3 0 3 = some (.put,reads) ∧
    written 0 reads = copies smallConfig smallGc 0 0 ((validSecs smallGc 0).take (secsRead 2 3)) :=
  gc_line_copies_live (by decide) (by decide) (fun _ => rfl) smallGc_range 0 (by decide) (Nat.le_refl _)

example : (pblkGcLineWs smallConfig smallGc 3 0 3).map (fun x => (x.1,(written 0 x.2).map Sector.lba)) =
    some (.put,[1,2]) := by decide

/-! ## What the write path relies on -/

theorem mem_liveSector {m : Map} {dev : DevAddr → δ} {line : Nat} {lba : Option Nat} {x : Sector δ}
    (h : liveSector m dev line lba = some x) : ∃ a, m.transMap x.lba = .dev a ∧ a.line = line ∧ x.data = dev a := by
  cases lba with
  | none => cases h
  | some lba =>
    simp only [liveSector] at h
    split at h
    · split at h
      · cases h
        exact ⟨_,‹_›,‹_›,rfl⟩
      · cases h
    · cases h

/-- The disk of `mixedRun` after its line was closed. -/
def closedLines : LineMgmt := { mixedDisk.ftl.map.lines with dataLine := none }

def closedDisk : Disk Nat :=
  { mixedDisk with ftl := { mixedDisk.ftl with map := { mixedDisk.ftl.map with lines := closedLines } } }

theorem closedDisk_step : Disk.step smallConfig mixedDisk (.lines closedLines) = some closedDisk := rfl

theorem closedDisk_reaches : Reaches (Disk.step smallConfig) (Disk.Relies smallConfig)
    (Disk.init (fun _ => 0) smallLines smallRl) closedDisk := by
  refine mixedDisk_reaches.tail ?_ closedDisk_step
  intro l hl
  exact nomatch (show (none : Option Nat) = some l from hl)

theorem closedDisk_collectable : closedDisk.ftl.Collectable smallConfig 0 := by
  have hl2p : closedDisk.ftl.marks.l2p = 2 := by decide +kernel
  have hmem : closedDisk.ftl.marks.mem = 3 := by decide +kernel
  have hphase : (closedDisk.ftl.slot smallConfig 2).phase ≠ some .submitted := by decide +kernel
  refine ⟨by decide +kernel,?_⟩
  intro i a hm
  obtain rfl : i = 2 := by
    have hlow := hm.1
    have hhigh := hm.2.1
    omega
  exact absurd hm.2.2.1 hphase

def closedDev (a : DevAddr) : Nat := ((closedDisk.media a).map Prod.snd).getD 0

theorem closedDev_eq (a : DevAddr) (lba v : Nat) (h : closedDisk.media a = some (lba,v)) : closedDev a = v := by
  simp [closedDev,h]

theorem closedRead_eq : pblkSubmitReadGc smallConfig closedDisk.ftl.map closedDev 0 [some 0,some 1,some 2] =
    some ⟨[some 0,some 1,none],[10,11],2⟩ := by
  decide +kernel

theorem closedRead_range (lba : Nat) (h : some lba ∈ [some 0,some 1,some 2]) : lba < smallConfig.nrSecs := by
  change lba < 16
  simp only [List.mem_cons,Option.some.injEq,List.not_mem_nil,or_false] at h
  omega

end Sdssd.Pblk
