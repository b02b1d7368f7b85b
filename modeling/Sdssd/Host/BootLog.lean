import Sdssd.Host.BootBlock

/-!
# Positions of successive boot pages

Every flush of a boot page asks for the position after the last one. Positions are meant to run through
the pages of a channel and then move on to the next channel of the list.
-/

namespace Sdssd.Host

open Framework

/-- The two logs: bad-block tables and meta pages. -/
inductive BootLog
  | bbtpg
  | metapg
  deriving DecidableEq, Repr

def BootLog.chIter : BootLog → List Nat
  | .bbtpg => bootSetup.metaPage.bbtChIter
  | .metapg => bootSetup.metaPage.metaChIter

/-- `bootblk_get_next_bbt_pos` or `bootblk_get_next_meta_pos`, with the position stored in the page. -/
def bootblkGetNext (log : BootLog) (m : BootblkMetaPage) : Except Fault (GeoPpa × BootblkMetaPage) :=
  match log with
  | .bbtpg => (bootblkGetNextBbtPos m).map fun pos => (pos,{ m with bbtPageAddress := pos })
  | .metapg => (bootblkGetNextMetaPos m).map fun pos => (pos,{ m with metaPageAddress := pos })

/-- A sequence of calls for either log, and the positions they return. -/
def bootblkGetNexts : List BootLog → BootblkMetaPage → Except Fault (List (BootLog × GeoPpa))
  | [], _ => .ok []
  | log :: logs, m => (bootblkGetNext log m).bind fun r =>
      (bootblkGetNexts logs r.2).map fun ps => (log,r.1) :: ps

/-- The positions of one log, oldest first. -/
def positionsOf (log : BootLog) (ps : List (BootLog × GeoPpa)) : List GeoPpa :=
  (ps.filter fun p => p.1 = log).map Prod.snd

/-- The channel after `ch` in the list. -/
def nextChannel (chIter : List Nat) (ch : Nat) : Nat := chIter.getD ((chIter.idxOf ch + 1) % 4) 0

/-- Channels come from the list, the next one is taken exactly when the page wraps to 0, and no position
comes again while the log goes once through its channels. -/
structure LogOrder (chIter : List Nat) (ps : List GeoPpa) : Prop where
  channel : ∀ p ∈ ps, Nand.ch.get p ∈ chIter
  advance : ∀ (i : Nat) p q, ps[i]? = some p → ps[i + 1]? = some q → Nand.ch.get q =
    if Nand.pg.get q = 0 then nextChannel chIter (Nand.ch.get p) else Nand.ch.get p
  distinct : ∀ (i j : Nat) p, i < j → j < i + 4 * 2^pgBits → ps[i]? = some p → ps[j]? ≠ some p

/-- The calls return, both logs are in order, and they have no position in common. -/
def WellLogged (logs : List BootLog) : Prop :=
  ∃ ps, bootblkGetNexts logs bootSetup.metaPage = .ok ps ∧
    (∀ log, LogOrder log.chIter (positionsOf log ps)) ∧
    ∀ p ∈ positionsOf .bbtpg ps, ∀ q ∈ positionsOf .metapg ps, p ≠ q

/-- The first channel of a log. -/
def BootLog.firstCh : BootLog → Nat
  | .bbtpg => 0
  | .metapg => 4

/-- The page after `a` positions of the one log and `b` of the other. -/
private structure Positioned (a : BootLog → Nat) (m : BootblkMetaPage) : Prop where
  bbtIter : m.bbtChIter = [0,1,2,3]
  metaIter : m.metaChIter = [4,5,6,7]
  bbt : m.bbtPageAddress = bootAddress 0 (a .bbtpg)
  metaPg : m.metaPageAddress = bootAddress 4 (a .metapg)

private theorem Positioned.next {a : BootLog → Nat} {m : BootblkMetaPage} (h : Positioned a m)
    (log : BootLog) : ∃ m', bootblkGetNext log m = .ok (bootPos log.firstCh (a log),m') ∧
      Positioned (Function.update a log (a log + 1)) m' := by
  cases log with
  | bbtpg =>
    refine ⟨{ m with bbtPageAddress := bootPos 0 (a .bbtpg) },?_,h.bbtIter,h.metaIter,?_,h.metaPg⟩
    · have hpos : bootblkGetNextPos [0,1,2,3] (bootAddress 0 (a .bbtpg)) = .ok (bootPos 0 (a .bbtpg)) :=
        bootblkGetNextPos_bootAddress rfl _
      rw [bootblkGetNext,bootblkGetNextBbtPos,h.bbt,h.bbtIter,hpos]
      rfl
    · rw [Function.update_self]
      rfl
  | metapg =>
    refine ⟨{ m with metaPageAddress := bootPos 4 (a .metapg) },?_,h.bbtIter,h.metaIter,h.bbt,?_⟩
    · have hpos : bootblkGetNextPos [4,5,6,7] (bootAddress 4 (a .metapg)) = .ok (bootPos 4 (a .metapg)) :=
        bootblkGetNextPos_bootAddress rfl _
      rw [bootblkGetNext,bootblkGetNextMetaPos,h.metaPg,h.metaIter,hpos]
      rfl
    · rw [Function.update_self]
      rfl

/-- The positions of any sequence of calls: the page counts on, and the channel stays. -/
private theorem positions_from {a : BootLog → Nat} {m : BootblkMetaPage} (h : Positioned a m)
    (logs : List BootLog) : ∃ ps, bootblkGetNexts logs m = .ok ps ∧ ∀ log, positionsOf log ps =
      (List.range' (a log) (logs.count log)).map (bootPos log.firstCh) := by
  induction logs generalizing a m with
  | nil => exact ⟨[],rfl,fun _ => rfl⟩
  | cons k logs ih =>
    obtain ⟨m',hcall,hm'⟩ := h.next k
    obtain ⟨ps,hps,hpos⟩ := ih hm'
    refine ⟨(k,bootPos k.firstCh (a k)) :: ps,?_,fun log => ?_⟩
    · rw [bootblkGetNexts,hcall]
      simp only [Except.bind,hps,Except.map]
    · have hrest := hpos log
      rw [positionsOf] at hrest ⊢
      rcases eq_or_ne k log with rfl | hne
      · rw [Function.update_self] at hrest
        simp only [List.filter_cons,decide_true,if_true,List.map_cons,hrest,List.count_cons_self,
          List.range'_succ]
      · rw [Function.update_of_ne hne.symm] at hrest
        simp only [List.filter_cons,hne,decide_false,Bool.false_eq_true,if_false,hrest,
          List.count_cons_of_ne hne]

theorem bootblkGetNexts_ok (logs : List BootLog) :
    ∃ ps, bootblkGetNexts logs bootSetup.metaPage = .ok ps ∧ ∀ log, positionsOf log ps =
      (List.range (logs.count log)).map (bootPos log.firstCh) := by
  have hstart : Positioned (fun _ => 0) bootSetup.metaPage := ⟨rfl,rfl,rfl,rfl⟩
  obtain ⟨ps,hps,hpos⟩ := positions_from hstart logs
  refine ⟨ps,hps,fun log => ?_⟩
  rw [hpos log,List.range_eq_range']

/-- After 512 positions the page wraps to 0 and the channel is still the first one. -/
theorem bootPos_wraps (ch : Nat) : bootPos ch 512 = bootPos ch 0 := by
  rw [bootPos,bootPos,← BitField.set_mod Nand.pg _ 512]
  rfl

section Order

variable {log : BootLog} {n : Nat}

theorem firstCh_lt (log : BootLog) : log.firstCh < 16 := by
  cases log <;> decide

theorem firstCh_mem (log : BootLog) : log.firstCh ∈ log.chIter := by
  cases log <;> decide

private theorem getElem?_positions {ch i : Nat} {p : GeoPpa} :
    ((List.range n).map (bootPos ch))[i]? = some p ↔ i < n ∧ bootPos ch i = p := by
  rw [List.getElem?_map,Option.map_eq_some_iff]
  constructor
  · rintro ⟨j,hj,rfl⟩
    obtain ⟨hi,rfl⟩ := List.getElem?_eq_some_iff.mp hj
    rw [List.length_range] at hi
    exact ⟨hi,by rw [List.getElem_range]⟩
  · rintro ⟨hi,rfl⟩
    exact ⟨i,List.getElem?_range hi,rfl⟩

theorem logOrder_of_le (h : n ≤ 512) :
    LogOrder log.chIter ((List.range n).map (bootPos log.firstCh)) where
  channel p hp := by
    obtain ⟨i,-,rfl⟩ := List.mem_map.mp hp
    rw [ch_bootPos (firstCh_lt log)]
    exact firstCh_mem log
  advance i p q hp hq := by
    obtain ⟨-,rfl⟩ := getElem?_positions.mp hp
    obtain ⟨hi,rfl⟩ := getElem?_positions.mp hq
    have hpg : Nand.pg.get (bootPos log.firstCh (i + 1)) ≠ 0 := by
      rw [pg_bootPos _ (by omega)]
      omega
    rw [if_neg hpg,ch_bootPos (firstCh_lt log),ch_bootPos (firstCh_lt log)]
  distinct i j p hij _ hp hq := by
    obtain ⟨hi,rfl⟩ := getElem?_positions.mp hp
    obtain ⟨hj,heq⟩ := getElem?_positions.mp hq
    have hpg : Nand.pg.get (bootPos log.firstCh j) = Nand.pg.get (bootPos log.firstCh i) := by rw [heq]
    rw [pg_bootPos _ (by omega),pg_bootPos _ (by omega)] at hpg
    omega

/-- The 513th position is the first one again. -/
theorem not_logOrder {chIter : List Nat} {ch : Nat} (h : 512 < n) :
    ¬LogOrder chIter ((List.range n).map (bootPos ch)) := by
  intro hord
  apply hord.distinct 0 512 (bootPos ch 0) (by decide) (by decide)
  · exact getElem?_positions.mpr ⟨by omega,rfl⟩
  · exact getElem?_positions.mpr ⟨h,bootPos_wraps ch⟩

theorem logOrder_iff :
    LogOrder log.chIter ((List.range n).map (bootPos log.firstCh)) ↔ n ≤ 2^pgBits := by
  constructor
  · intro hord
    by_contra hn
    exact not_logOrder (Nat.lt_of_not_le hn) hord
  · exact logOrder_of_le

end Order

/-- Boot page positions are in order exactly as long as no log has gone through the pages of its first
channel. -/
theorem boot_positions_in_order_iff (logs : List BootLog) :
    WellLogged logs ↔ ∀ log, logs.count log ≤ 2^pgBits := by
  obtain ⟨ps,hps,hpos⟩ := bootblkGetNexts_ok logs
  constructor
  · rintro ⟨ps',hps',hord,-⟩ log
    obtain rfl : ps = ps' := Except.ok.inj (hps.symm.trans hps')
    have := hord log
    rw [hpos log] at this
    exact logOrder_iff.mp this
  · intro hle
    refine ⟨ps,hps,fun log => ?_,?_⟩
    · rw [hpos log]
      exact logOrder_iff.mpr (hle log)
    · intro p hp q hq hpq
      rw [hpos] at hp hq
      obtain ⟨i,-,rfl⟩ := List.mem_map.mp hp
      obtain ⟨j,-,rfl⟩ := List.mem_map.mp hq
      -- The channels differ: 0 for bad-block tables, 4 for meta pages.
      have hch := congrArg Nand.ch.get hpq
      rw [ch_bootPos (firstCh_lt _),ch_bootPos (firstCh_lt _)] at hch
      cases hch

/-- The 513th bad-block table goes to the page of the first one. -/
theorem boot_positions_repeat : ¬WellLogged (List.replicate 513 .bbtpg) := by
  rintro ⟨ps,hps,hord,-⟩
  obtain ⟨ps',hps',hpos⟩ := bootblkGetNexts_ok (List.replicate 513 .bbtpg)
  obtain rfl : ps' = ps := Except.ok.inj (hps'.symm.trans hps)
  have hbbt := hord .bbtpg
  rw [hpos,List.count_replicate_self] at hbbt
  exact not_logOrder (by decide) hbbt

end Sdssd.Host
