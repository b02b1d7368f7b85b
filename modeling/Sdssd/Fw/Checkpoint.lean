import Sdssd.Framework.Overwrite
import Sdssd.Fw.LogPageStep

/-!
# Checkpoints of the mapping table

Dirty segments of the mapping table are marked in one of two bitmaps. `apply_ckpt` exchanges them,
remembers where the log of every band stands, flushes the segments marked in the one taken out of
use and then moves the start of the recovery window to the remembered place.
-/

namespace Sdssd.Fw

open Framework

/-- `BAND_NUM`. -/
def bandNum : Nat := 3

/-- `recov_logs_t`. -/
structure RecovLogs where
  logPpa : Ppa
  pos : Nat
  deriving DecidableEq, Repr

/-- The members of `band_info_t` that a checkpoint uses. -/
structure BandInfo where
  currentPpa : Ppa
  baseLogPage : RecovLogs
  anchorLogPage : RecovLogs
  deriving DecidableEq, Repr

/-- The bitmaps to which the two pointers can point. -/
inductive SgmtState
  | sgmtState1
  | sgmtState2
  deriving DecidableEq, Repr

/-- `ckpt_cb` with a bitmap of `n` = `MAP_SGMT_NUM` bits for each of the two arrays, the bands, and the
links of the block table. -/
structure Ckpt (n : Nat) where
  ongoing : Bool
  logPagesNum : BitVec 16
  sgmtState : SgmtState → Fin n → Bool
  psgmtCkptLock : SgmtState
  psgmtPathMutate : SgmtState
  bands : Nat → BandInfo
  bmi : BmiLinks

/-- Commands a checkpoint sends: 1024 entries of the mapping table from `entry` on, or the index. -/
inductive CkptCall
  | flushEpSlice (entry : Nat)
  | flushMapIndex
  deriving DecidableEq, Repr

/-- Where the bands stand and how the blocks are linked, after pages have been written. -/
structure Places where
  currentPpa : Nat → Ppa
  bmi : BmiLinks

namespace Ckpt

variable {n : Nat}

/-- Writing pages moves the bands on. -/
def write (s : Ckpt n) (places : Places) : Ckpt n :=
  { s with
    bands := fun band => { s.bands band with currentPpa := places.currentPpa band }
    bmi := places.bmi }

/-- Setting a bit of the bitmap in use. -/
def mark (s : Ckpt n) (i : Fin n) : Ckpt n :=
  { s with
    sgmtState := Function.update s.sgmtState s.psgmtPathMutate
      (Function.update (s.sgmtState s.psgmtPathMutate) i true) }

/-- `clear_bit` on the bitmap that is being flushed. -/
def clearBit (s : Ckpt n) (i : Fin n) : Ckpt n :=
  { s with
    sgmtState := Function.update s.sgmtState s.psgmtCkptLock
      (Function.update (s.sgmtState s.psgmtCkptLock) i false) }

def swap (s : Ckpt n) : Ckpt n :=
  { s with psgmtCkptLock := s.psgmtPathMutate, psgmtPathMutate := s.psgmtCkptLock }

def ckptStartLogPageAnchor (pgNum : Nat) (s : Ckpt n) : Ckpt n :=
  { s with
    bands := (List.range bandNum).foldl (fun bands i => Function.update bands i
      { bands i with anchorLogPage := ⟨getPrevLogPagePpa s.bmi pgNum (bands i).currentPpa,0⟩ }) s.bands }

def ckptEndLogPageFwd (s : Ckpt n) : Ckpt n :=
  { s with
    bands := (List.range bandNum).foldl (fun bands i => Function.update bands i
      { bands i with
        baseLogPage := ⟨(bands i).anchorLogPage.logPpa,0⟩
        anchorLogPage := { (bands i).anchorLogPage with logPpa := 0xffffeeee } }) s.bands }

/-- The loop body under `for_each_set_bit`; the flush writes pages, which moves the bands. -/
def flushSgmt (moved : CkptCall → Places) (r : Ckpt n × List CkptCall) (i : Fin n) :
    Ckpt n × List CkptCall :=
  if r.1.sgmtState r.1.psgmtCkptLock i then
    let call := CkptCall.flushEpSlice (i * 1024)
    ((r.1.write (moved call)).clearBit i,r.2 ++ [call])
  else r

/-- `apply_ckpt` with the calls it makes, when pages written by each flush have moved the bands to
`moved`. -/
def applyCkpt (pgNum : Nat) (moved : CkptCall → Places) (s : Ckpt n) : Ckpt n × List CkptCall :=
  let s := s.swap.ckptStartLogPageAnchor pgNum
  let r := (List.finRange n).foldl (flushSgmt moved) (s,[])
  let s := r.1.write (moved .flushMapIndex)
  ({ s with ongoing := false }.ckptEndLogPageFwd,r.2 ++ [.flushMapIndex])

/-- `ckpt_monitor`, with the calls of `apply_ckpt` if that is called. -/
def ckptMonitor (pgNum : Nat) (moved : CkptCall → Places) (s : Ckpt n) : Ckpt n × Option (List CkptCall) :=
  let s := { s with logPagesNum := s.logPagesNum + 1 }
  if s.ongoing = false ∧ 128 ≤ s.logPagesNum.toNat then
    let r := { s with ongoing := true, logPagesNum := 0 }.applyCkpt pgNum moved
    (r.1,some r.2)
  else (s,none)

theorem ckptStartLogPageAnchor_bands (pgNum : Nat) (s : Ckpt n) {band : Nat} (hband : band < bandNum) :
    (s.ckptStartLogPageAnchor pgNum).bands band = { s.bands band with
      anchorLogPage := ⟨getPrevLogPagePpa s.bmi pgNum (s.bands band).currentPpa,0⟩ } :=
  (foldl_update_range (fun info : BandInfo => { info with
    anchorLogPage := ⟨getPrevLogPagePpa s.bmi pgNum info.currentPpa,0⟩ }) s.bands bandNum band).trans
    (if_pos hband)

theorem ckptEndLogPageFwd_bands (s : Ckpt n) {band : Nat} (hband : band < bandNum) :
    s.ckptEndLogPageFwd.bands band = { s.bands band with
      baseLogPage := ⟨(s.bands band).anchorLogPage.logPpa,0⟩
      anchorLogPage := { (s.bands band).anchorLogPage with logPpa := 0xffffeeee } } :=
  (foldl_update_range (fun info : BandInfo => { info with
    baseLogPage := ⟨info.anchorLogPage.logPpa,0⟩
    anchorLogPage := { info.anchorLogPage with logPpa := 0xffffeeee } }) s.bands bandNum band).trans
    (if_pos hband)

/-- The segments of a list are flushed and their bits cleared; pointers, the other bitmap and the anchors
are as before. -/
structure Flushed (s : Ckpt n) (l : List (Fin n)) (r : Ckpt n × List CkptCall) : Prop where
  calls : r.2 = (l.filter (s.sgmtState s.psgmtCkptLock)).map fun i => .flushEpSlice (i * 1024)
  lock : r.1.psgmtCkptLock = s.psgmtCkptLock
  mutate : r.1.psgmtPathMutate = s.psgmtPathMutate
  cleared : ∀ i ∈ l, r.1.sgmtState s.psgmtCkptLock i = false
  kept : ∀ i, i ∉ l → r.1.sgmtState s.psgmtCkptLock i = s.sgmtState s.psgmtCkptLock i
  other : ∀ b, b ≠ s.psgmtCkptLock → r.1.sgmtState b = s.sgmtState b
  anchor : ∀ band, (r.1.bands band).anchorLogPage = (s.bands band).anchorLogPage

variable {s : Ckpt n} {l : List (Fin n)} {r : Ckpt n × List CkptCall}

/-- The bit of a segment not yet visited is as it was when the flush began. -/
theorem Flushed.step (h : Flushed s l r) {i : Fin n} (hi : i ∉ l) (moved : CkptCall → Places) :
    Flushed s (l ++ [i]) (flushSgmt moved r i) := by
  have hbit : r.1.sgmtState r.1.psgmtCkptLock i = s.sgmtState s.psgmtCkptLock i := by
    rw [h.lock,h.kept i hi]
  rw [flushSgmt,hbit]
  cases hset : s.sgmtState s.psgmtCkptLock i with
  | false =>
    rw [if_neg (by decide)]
    refine ⟨?_,h.lock,h.mutate,?_,?_,h.other,h.anchor⟩
    · rw [List.filter_append,List.filter_cons_of_neg (by simp [hset]),List.filter_nil,List.append_nil]
      exact h.calls
    · intro j hj
      rcases List.mem_append.mp hj with hj | hj
      · exact h.cleared j hj
      · rw [List.mem_singleton.mp hj,h.kept i hi,hset]
    · intro j hj
      exact h.kept j fun hmem => hj (List.mem_append_left _ hmem)
  | true =>
    rw [if_pos rfl]
    refine ⟨?_,h.lock,h.mutate,?_,?_,?_,h.anchor⟩
    · rw [List.filter_append,List.filter_cons_of_pos hset,List.filter_nil,List.map_append,h.calls]
      rfl
    · intro j hj
      show Function.update r.1.sgmtState r.1.psgmtCkptLock _ s.psgmtCkptLock j = _
      rw [h.lock,Function.update_self]
      by_cases hji : j = i
      · rw [hji,Function.update_self]
      · rw [Function.update_of_ne hji]
        show r.1.sgmtState r.1.psgmtCkptLock j = false
        rw [h.lock]
        exact h.cleared j ((List.mem_append.mp hj).resolve_right fun h => hji (List.mem_singleton.mp h))
    · intro j hj
      have hji : j ≠ i := fun h => hj (List.mem_append_right _ (List.mem_singleton.mpr h))
      show Function.update r.1.sgmtState r.1.psgmtCkptLock _ s.psgmtCkptLock j = _
      rw [h.lock,Function.update_self,Function.update_of_ne hji]
      show r.1.sgmtState r.1.psgmtCkptLock j = _
      rw [h.lock]
      exact h.kept j fun hmem => hj (List.mem_append_left _ hmem)
    · intro b hb
      show Function.update r.1.sgmtState r.1.psgmtCkptLock _ b = _
      rw [h.lock,Function.update_of_ne hb]
      exact h.other b hb

/-- The whole loop under `for_each_set_bit`. -/
theorem flushed_foldl (moved : CkptCall → Places) (s : Ckpt n) (hl : l.Nodup) :
    Flushed s l (l.foldl (flushSgmt moved) (s,[])) := by
  induction l using List.reverseRecOn with
  | nil => exact ⟨rfl,rfl,rfl,nofun,fun _ _ => rfl,fun _ _ => rfl,fun _ => rfl⟩
  | append_singleton l i ih =>
    rw [List.foldl_append,List.foldl_cons,List.foldl_nil]
    have hnodup := List.nodup_append.mp hl
    exact (ih hnodup.1).step (fun hi => hnodup.2.2 i hi i (List.mem_singleton_self i) rfl) moved

/-- The pointers address different bitmaps, the one for flushing is clear, and the one in use has the
bits of the segments in `marked`. -/
structure PingPong (s : Ckpt n) (marked : Fin n → Bool) : Prop where
  apart : s.psgmtCkptLock ≠ s.psgmtPathMutate
  clean : ∀ i, s.sgmtState s.psgmtCkptLock i = false
  marks : ∀ i, s.sgmtState s.psgmtPathMutate i = marked i

/-- What a checkpoint does in the state `s` with these segments marked since the one before. -/
structure Checkpoints (pgNum : Nat) (s : Ckpt n) (marked : Fin n → Bool) (s' : Ckpt n)
    (calls : List CkptCall) : Prop where
  calls : calls = (((List.finRange n).filter marked).map fun i => .flushEpSlice (i * 1024)) ++ [.flushMapIndex]
  apart : s'.psgmtCkptLock ≠ s'.psgmtPathMutate
  clear : ∀ b i, s'.sgmtState b i = false
  base : ∀ band, band < bandNum → (s'.bands band).baseLogPage.logPpa =
    getPrevLogPagePpa s.bmi pgNum (s.bands band).currentPpa

theorem PingPong.checkpoints {marked : Fin n → Bool} (h : PingPong s marked) (pgNum : Nat)
    (moved : CkptCall → Places) :
    Checkpoints pgNum s marked (s.applyCkpt pgNum moved).1 (s.applyCkpt pgNum moved).2 := by
  have hflush := flushed_foldl moved (s.swap.ckptStartLogPageAnchor pgNum) (List.nodup_finRange n)
  have hmarks : s.sgmtState s.psgmtPathMutate = marked := funext h.marks
  refine ⟨?_,?_,?_,?_⟩
  · rw [← hmarks]
    exact congrArg (· ++ [CkptCall.flushMapIndex]) hflush.calls
  · intro he
    exact h.apart (hflush.mutate.symm.trans (he.symm.trans hflush.lock))
  · intro b i
    by_cases hb : b = s.psgmtPathMutate
    · rw [hb]
      exact hflush.cleared i (List.mem_finRange i)
    · -- the other bitmap is the one that was clear before
      have hlock : b = s.psgmtCkptLock := by
        have hapart := h.apart
        revert hb hapart
        cases b <;> cases s.psgmtPathMutate <;> cases s.psgmtCkptLock <;> decide
      refine (congrFun (hflush.other b hb) i).trans ?_
      rw [hlock]
      exact h.clean i
  · intro band hband
    refine (congrArg (fun info : BandInfo => info.baseLogPage.logPpa)
      (ckptEndLogPageFwd_bands _ hband)).trans ?_
    refine (congrArg RecovLogs.logPpa (hflush.anchor band)).trans ?_
    rw [ckptStartLogPageAnchor_bands pgNum _ hband]
    rfl

/-- After a checkpoint the roles of the bitmaps are kept up with nothing marked. -/
theorem Checkpoints.pingPong {pgNum : Nat} {marked : Fin n → Bool} {s' : Ckpt n} {calls : List CkptCall}
    (h : Checkpoints pgNum s marked s' calls) : PingPong s' fun _ => false :=
  ⟨h.apart,h.clear _,h.clear _⟩

end Ckpt

/-- What can happen: a segment is marked, pages are written, or a checkpoint is made, directly or by the
monitor. -/
inductive CkptAction (n : Nat)
  | mark (i : Fin n)
  | write (places : Places)
  | apply (moved : CkptCall → Places)
  | monitor (moved : CkptCall → Places)

/-- One action, with the calls of `apply_ckpt` if that runs. -/
def ckptStep {n : Nat} (pgNum : Nat) (s : Ckpt n) : CkptAction n → Ckpt n × Option (List CkptCall)
  | .mark i => (s.mark i,none)
  | .write places => (s.write places,none)
  | .apply moved => ((s.applyCkpt pgNum moved).1,some (s.applyCkpt pgNum moved).2)
  | .monitor moved => s.ckptMonitor pgNum moved

/-- The segments marked since the last `apply_ckpt`, after one more action. -/
def markedStep {n : Nat} (marked : Fin n → Bool) (a : CkptAction n) (applied : Bool) : Fin n → Bool :=
  if applied then fun _ => false
  else match a with
    | .mark i => Function.update marked i true
    | _ => marked

/-- A sequence of actions: the state, and what was marked since the last `apply_ckpt`. -/
def ckptRun {n : Nat} (pgNum : Nat) (s : Ckpt n) (acts : List (CkptAction n)) : Ckpt n × (Fin n → Bool) :=
  acts.foldl (fun r a =>
    let next := ckptStep pgNum r.1 a
    (next.1,markedStep r.2 a next.2.isSome)) (s,fun _ => false)

section Run

variable {n : Nat} {s : Ckpt n} {marked : Fin n → Bool}

theorem Ckpt.PingPong.mark (h : s.PingPong marked) (i : Fin n) :
    (s.mark i).PingPong (Function.update marked i true) := by
  refine ⟨h.apart,?_,?_⟩
  · intro j
    show Function.update s.sgmtState s.psgmtPathMutate _ s.psgmtCkptLock j = false
    rw [Function.update_of_ne h.apart]
    exact h.clean j
  · intro j
    have hmarks : s.sgmtState s.psgmtPathMutate = marked := funext h.marks
    show Function.update s.sgmtState s.psgmtPathMutate
      (Function.update (s.sgmtState s.psgmtPathMutate) i true) s.psgmtPathMutate j = _
    rw [hmarks,Function.update_self]

/-- One action keeps the roles of the bitmaps, and a checkpoint flushes what is marked. -/
theorem Ckpt.PingPong.step (h : s.PingPong marked) (pgNum : Nat) (a : CkptAction n) :
    (ckptStep pgNum s a).1.PingPong (markedStep marked a (ckptStep pgNum s a).2.isSome) ∧
      ∀ calls, (ckptStep pgNum s a).2 = some calls →
        s.Checkpoints pgNum marked (ckptStep pgNum s a).1 calls := by
  cases a with
  | mark i => exact ⟨h.mark i,fun calls hcalls => by cases hcalls⟩
  | write places => exact ⟨⟨h.apart,h.clean,h.marks⟩,fun calls hcalls => by cases hcalls⟩
  | apply moved =>
    have hckpt := h.checkpoints pgNum moved
    refine ⟨hckpt.pingPong,?_⟩
    intro calls hcalls
    cases hcalls
    exact hckpt
  | monitor moved =>
    rw [ckptStep,Ckpt.ckptMonitor]
    by_cases hdue : s.ongoing = false ∧ 128 ≤ (s.logPagesNum + 1).toNat
    · -- counting and starting change neither bitmaps nor bands
      have hstart : Ckpt.PingPong { s with ongoing := true, logPagesNum := 0 } marked :=
        ⟨h.apart,h.clean,h.marks⟩
      have hckpt := hstart.checkpoints pgNum moved
      rw [if_pos hdue]
      refine ⟨hckpt.pingPong,?_⟩
      intro calls hcalls
      cases hcalls
      exact ⟨hckpt.calls,hckpt.apart,hckpt.clear,hckpt.base⟩
    · rw [if_neg hdue]
      exact ⟨⟨h.apart,h.clean,h.marks⟩,fun calls hcalls => by cases hcalls⟩

theorem ckptRun_pingPong (pgNum : Nat) (hclear : ∀ b i, s.sgmtState b i = false)
    (hapart : s.psgmtCkptLock ≠ s.psgmtPathMutate) (acts : List (CkptAction n)) :
    (ckptRun pgNum s acts).1.PingPong (ckptRun pgNum s acts).2 := by
  induction acts using List.reverseRecOn with
  | nil => exact ⟨hapart,hclear _,hclear _⟩
  | append_singleton acts a ih =>
    rw [ckptRun,List.foldl_append,List.foldl_cons,List.foldl_nil]
    exact (ih.step pgNum a).1

/-- Whatever is marked, written and checkpointed before: a checkpoint flushes exactly the segments marked
since the one before, in ascending order and before the index, leaves both bitmaps clear, and the
recovery window of every band starts at the log page before the place where the band stood at the
exchange of the bitmaps. -/
theorem checkpoint_flushes_marked (pgNum : Nat) (hclear : ∀ b i, s.sgmtState b i = false)
    (hapart : s.psgmtCkptLock ≠ s.psgmtPathMutate) (acts : List (CkptAction n)) (a : CkptAction n)
    (calls : List CkptCall) (hcalls : (ckptStep pgNum (ckptRun pgNum s acts).1 a).2 = some calls) :
    (ckptRun pgNum s acts).1.Checkpoints pgNum (ckptRun pgNum s acts).2
      (ckptStep pgNum (ckptRun pgNum s acts).1 a).1 calls :=
  ((ckptRun_pingPong pgNum hclear hapart acts).step pgNum a).2 calls hcalls

/-- Nothing marked, the pointers as they are declared. -/
def ckptClear (n : Nat) : Ckpt n :=
  ⟨false,0,fun _ _ => false,.sgmtState1,.sgmtState2,fun _ => ⟨0,⟨0,0⟩,⟨0,0⟩⟩,fun _ => ⟨0,0⟩⟩

/-- Segments 2 and 0 are marked and flushed, then 1 is marked. -/
def markedAgain : List (CkptAction 3) :=
  [.mark 2,.mark 0,.apply fun _ => ⟨fun _ => 0xffff,fun _ => ⟨0,0⟩⟩,.mark 1]

theorem checkpoint_flushes_marked_again :
    (ckptRun 2304 (ckptClear 3) markedAgain).1.Checkpoints 2304 (ckptRun 2304 (ckptClear 3) markedAgain).2
      (ckptStep 2304 (ckptRun 2304 (ckptClear 3) markedAgain).1
        (.apply fun _ => ⟨fun _ => 0,fun _ => ⟨0,0⟩⟩)).1 [.flushEpSlice 1024,.flushMapIndex] :=
  checkpoint_flushes_marked 2304 (fun _ _ => rfl) (by decide) markedAgain _ _ (by decide)

end Run

end Sdssd.Fw
