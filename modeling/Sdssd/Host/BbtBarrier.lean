import Sdssd.Framework.Counting
import Sdssd.Host.BbtDiscovery

/-!
# Waiting for the raw reads of a block

When the comparisons of the two counters are in their turn, the scan judges a block after all its raw
reads were handled and never waits in vain. Otherwise it may judge too early, or wait for ever.
-/

namespace Sdssd.Host

open Framework

/-- The block whose reads are under way. -/
def ScanPc.block : ScanPc → Option Nat
  | .next => none
  | .submit blk _ | .issued blk _ | .waiting blk | .checking blk => some blk

/-- The reads of the block that are counted as issued. -/
def ScanPc.issuedCnt : ScanPc → Nat
  | .next => 0
  | .submit _ k | .issued _ k => k
  | .waiting _ | .checking _ => rblkReads

/-- The reads of the block that are with the device or beyond. -/
def ScanPc.sentCnt : ScanPc → Nat
  | .next => 0
  | .submit _ k => k
  | .issued _ k => k + 1
  | .waiting _ | .checking _ => rblkReads

/-- The bad mark is in the table and the completion is counted. -/
def ReadPc.Handled : ReadPc → Prop
  | .counted _ | .returned => True
  | _ => False

instance : DecidablePred ReadPc.Handled := fun p => by
  cases p <;> unfold ReadPc.Handled <;> infer_instance

/-- The reads of the block whose completions are counted. -/
def BbtScan.handledCnt (s : BbtScan) : Nat :=
  s.pc.block.elim 0 fun blk => countWhere (Finset.range rblkReads) (fun k => s.reads (blk,k)) ReadPc.Handled

/-- The wake-up of the block is still owed, or it was given. `base` is the number of reads of the
blocks before. -/
inductive Signal (base : Nat) (s : BbtScan) : Prop
  | owed (hdone : s.done = 0) (hpc : ∀ blk, s.pc ≠ .checking blk)
      (hlast : s.bbtCmplCnt = base + rblkReads → ∃ r, s.reads r = .counted (base + rblkReads))
  | given (hpc : ∃ blk, s.pc = .waiting blk ∧ s.done = 1 ∨ s.pc = .checking blk ∧ s.done = 0)
      (hcmpl : s.bbtCmplCnt = base + rblkReads) (hlast : ∀ r, s.reads r ≠ .counted (base + rblkReads))

structure Barrier (base : Nat) (s : BbtScan) : Prop where
  order : (s.pc.block.toList ++ s.todo).Nodup
  room : ∀ blk k, s.pc = .submit blk k ∨ s.pc = .issued blk k → k < rblkReads
  issu : s.bbtIssuCnt = base + s.pc.issuedCnt
  cmpl : s.bbtCmplCnt = base + s.handledCnt
  fresh : ∀ blk ∈ s.todo, ∀ k, s.reads (blk,k) = .absent
  sent : ∀ blk, s.pc.block = some blk → ∀ k, s.reads (blk,k) = .absent ↔ s.pc.sentCnt ≤ k
  flying : ∀ r, s.reads r = .device ∨ s.reads r = .marked → s.pc.block = some r.1
  value : ∀ r v, s.reads r = .counted v →
    v ≤ s.bbtCmplCnt ∧ (v < base ∨ s.pc.block = some r.1 ∧ base < v)
  unique : ∀ r r' v, s.reads r = .counted v → s.reads r' = .counted v → r = r'
  signal : Signal base s

theorem barrier_init (t : SysTbl) : Barrier 0 (BbtScan.init t) := by
  constructor
  case order => exact scanOrder_nodup
  case room => nofun
  case issu => rfl
  case cmpl => rfl
  case fresh =>
    intro blk _ k
    rfl
  case sent => nofun
  case flying => nofun
  case value => nofun
  case unique => nofun
  case signal =>
    apply Signal.owed rfl
    · intro blk h
      cases h
    · intro h
      exact absurd h (by decide : ¬ 0 = 0 + rblkReads)

/-- A comparison is out of turn when it finds the counters equal while reads of the block are still to
be issued, or when the last completion is compared before the last read was counted as issued. -/
def inTurn (s : BbtScan) : ScanLabel → Prop
  | .submitFail => False
  | .compare r => ∀ v, s.reads r = .counted v →
      (v = s.bbtIssuCnt → ∃ blk, s.pc = .waiting blk) ∧
        (v = s.bbtIssuCnt + 1 → ∀ blk, s.pc ≠ .issued blk (rblkReads - 1))
  | _ => True

section Step

variable {raw : RawBytes} {s s' : BbtScan} {base : Nat} {l : ScanLabel}

theorem nextRead_cases {blk k : Nat} (hk : k < rblkReads) :
    nextRead blk k = .submit blk (k + 1) ∧ k + 1 < rblkReads ∨
      nextRead blk k = .waiting blk ∧ k + 1 = rblkReads := by
  unfold nextRead
  by_cases h : k + 1 < rblkReads
  · exact Or.inl ⟨if_pos h,h⟩
  · exact Or.inr ⟨if_neg h,Nat.le_antisymm hk (Nat.le_of_not_lt h)⟩

@[simp] theorem setRead_self (s : BbtScan) (r : RawRead) (p : ReadPc) : (s.setRead r p).reads r = p :=
  Function.update_self ..

theorem setRead_of_ne {r x : RawRead} (p : ReadPc) (h : x ≠ r) :
    (s.setRead r p).reads x = s.reads x :=
  Function.update_of_ne h ..

theorem setRead_cases {r x : RawRead} {p q : ReadPc} (h : (s.setRead r p).reads x = q) :
    x = r ∧ p = q ∨ x ≠ r ∧ s.reads x = q := by
  by_cases hx : x = r
  · rw [hx,setRead_self] at h
    exact Or.inl ⟨hx,h⟩
  · rw [setRead_of_ne p hx] at h
    exact Or.inr ⟨hx,h⟩

theorem handledCnt_of_block {blk : Nat} (hb : s.pc.block = some blk) : s.handledCnt =
    countWhere (Finset.range rblkReads) (fun k => s.reads (blk,k)) ReadPc.Handled := by
  rw [BbtScan.handledCnt,hb]
  rfl

theorem Signal.isOwed (h : Signal base s) (hwait : ∀ blk, s.pc ≠ .waiting blk)
    (hcheck : ∀ blk, s.pc ≠ .checking blk) : s.done = 0 ∧
      (s.bbtCmplCnt = base + rblkReads → ∃ r, s.reads r = .counted (base + rblkReads)) := by
  cases h with
  | owed hdone _ hlast => exact ⟨hdone,hlast⟩
  | given hgiven =>
    obtain ⟨blk,⟨hpc,-⟩ | ⟨hpc,-⟩⟩ := hgiven
    · exact absurd hpc (hwait blk)
    · exact absurd hpc (hcheck blk)

theorem setRead_handledCnt {r : RawRead} {p : ReadPc} (hb : s.pc.block = some r.1)
    (hr : r.2 < rblkReads) (hold : ¬ (s.reads r).Handled) :
    (s.setRead r p).handledCnt = s.handledCnt + if p.Handled then 1 else 0 := by
  have hreads : (fun k => (s.setRead r p).reads (r.1,k)) =
      Function.update (fun k => s.reads (r.1,k)) r.2 p := by
    funext k
    by_cases hk : k = r.2
    · rw [hk,Function.update_self]
      exact setRead_self s r p
    · rw [Function.update_of_ne hk]
      exact setRead_of_ne p fun h => hk (congrArg Prod.snd h)
  have hcount := countWhere_update (p := ReadPc.Handled) (f := fun k => s.reads (r.1,k)) (v := p)
    (Finset.mem_range.mpr hr)
  rw [if_neg hold,Nat.add_zero,← hreads] at hcount
  rw [handledCnt_of_block hb,handledCnt_of_block (s := s.setRead r p) hb]
  exact hcount

theorem setRead_handledCnt_same {r : RawRead} {p : ReadPc} (hp : p.Handled ↔ (s.reads r).Handled) :
    (s.setRead r p).handledCnt = s.handledCnt := by
  cases hb : s.pc.block with
  | none => rw [BbtScan.handledCnt,BbtScan.handledCnt,hb,BbtScan.setRead,hb]; rfl
  | some blk =>
    rw [handledCnt_of_block hb,handledCnt_of_block (s := s.setRead r p) hb]
    apply congrArg Finset.card
    apply Finset.filter_congr
    intro k _
    show ((s.setRead r p).reads (blk,k)).Handled ↔ (s.reads (blk,k)).Handled
    by_cases hr : (blk,k) = r
    · rw [hr,setRead_self]
      exact hp
    · rw [setRead_of_ne p hr]

/-- A value of the counter that no handler holds may be given to one. -/
theorem setRead_unique {r : RawRead} {p : ReadPc}
    (h : ∀ x y v, s.reads x = .counted v → s.reads y = .counted v → x = y)
    (hp : ∀ v, p = .counted v → ∀ x, s.reads x ≠ .counted v) (x y : RawRead) (v : Nat)
    (hx : (s.setRead r p).reads x = .counted v) (hy : (s.setRead r p).reads y = .counted v) : x = y := by
  rcases setRead_cases hx with ⟨rfl,hpv⟩ | ⟨-,hold⟩
  · rcases setRead_cases hy with ⟨rfl,-⟩ | ⟨-,hold'⟩
    · rfl
    · exact absurd hold' (hp v hpv y)
  · rcases setRead_cases hy with ⟨rfl,hpv⟩ | ⟨-,hold'⟩
    · exact absurd hold (hp v hpv x)
    · exact h x y v hold hold'

namespace Barrier

theorem sentCnt_le (h : Barrier base s) : s.pc.sentCnt ≤ rblkReads := by
  cases hpc : s.pc with
  | next => exact Nat.zero_le _
  | submit blk k => exact Nat.le_of_lt (h.room blk k (Or.inl hpc))
  | issued blk k => exact h.room blk k (Or.inr hpc)
  | waiting blk => exact Nat.le_refl _
  | checking blk => exact Nat.le_refl _

theorem lt_sentCnt (h : Barrier base s) {r : RawRead} (hb : s.pc.block = some r.1)
    (hr : s.reads r ≠ .absent) : r.2 < s.pc.sentCnt :=
  Nat.lt_of_not_le fun hle => hr ((h.sent r.1 hb r.2).mpr hle)

theorem handledCnt_le (h : Barrier base s) : s.handledCnt ≤ s.pc.sentCnt := by
  unfold BbtScan.handledCnt
  cases hb : s.pc.block with
  | none => exact Nat.zero_le _
  | some blk =>
    rw [← Finset.card_range s.pc.sentCnt,Option.elim_some,countWhere]
    apply Finset.card_le_card
    intro k hk
    apply Finset.mem_range.mpr
    apply h.lt_sentCnt (r := (blk,k)) hb
    intro habs
    have hhandled := (Finset.mem_filter.mp hk).2
    rw [habs] at hhandled
    exact hhandled

/-- When the completions of the block are all counted, so are its reads. -/
theorem handled_of_cmpl (h : Barrier base s) (hcmpl : s.bbtCmplCnt = base + rblkReads) {blk : Nat}
    (hb : s.pc.block = some blk) {k : Nat} (hk : k < rblkReads) : (s.reads (blk,k)).Handled := by
  have hcnt : s.handledCnt = rblkReads := Nat.add_left_cancel (h.cmpl.symm.trans hcmpl)
  rw [BbtScan.handledCnt,hb,Option.elim_some,countWhere] at hcnt
  have hall := Finset.card_filter_eq_iff.mp (hcnt.trans (Finset.card_range rblkReads).symm)
  exact hall k (Finset.mem_range.mpr hk)

private theorem initCompletion (h : Barrier base s) {blk : Nat} {todo : List Nat} (hpc : s.pc = .next)
    (htodo : s.todo = blk :: todo) :
    Barrier base { s with pc := .submit blk 0, todo := todo, done := 0 } := by
  have hnone : s.pc.block = none := by rw [hpc]; rfl
  have hzero : s.bbtCmplCnt = base := by rw [h.cmpl,BbtScan.handledCnt,hnone]; rfl
  have habs : ∀ k, s.reads (blk,k) = .absent := h.fresh blk (htodo ▸ List.mem_cons_self)
  constructor
  case order =>
    have horder := h.order
    rw [hnone,htodo] at horder
    exact horder
  case room =>
    intro b k hk
    rcases hk with hk | hk
    · cases hk
      decide
    · cases hk
  case issu =>
    have hissu := h.issu
    rw [hpc] at hissu
    exact hissu
  case cmpl =>
    have hcnt : countWhere (Finset.range rblkReads) (fun k => s.reads (blk,k)) ReadPc.Handled = 0 := by
      simp [countWhere,habs,ReadPc.Handled]
    show s.bbtCmplCnt = base + countWhere (Finset.range rblkReads) (fun k => s.reads (blk,k)) ReadPc.Handled
    rw [hcnt,hzero]
    rfl
  case fresh =>
    intro b hb
    exact h.fresh b (htodo ▸ List.mem_cons_of_mem _ hb)
  case sent =>
    intro b hb k
    cases hb
    exact ⟨fun _ => Nat.zero_le k,fun _ => habs k⟩
  case flying =>
    intro r hr
    have hblock := h.flying r hr
    rw [hnone] at hblock
    cases hblock
  case value =>
    intro r v hr
    obtain ⟨hle,hlt | ⟨hblock,-⟩⟩ := h.value r v hr
    · exact ⟨hle,Or.inl hlt⟩
    · rw [hnone] at hblock
      cases hblock
  case unique => exact h.unique
  case signal =>
    apply Signal.owed rfl
    · intro b hb
      cases hb
    · intro hfull
      have hfull : s.bbtCmplCnt = base + 128 := hfull
      omega

private theorem submit (h : Barrier base s) {blk k : Nat} (hpc : s.pc = .submit blk k) :
    Barrier base ({ s with pc := .issued blk k }.setRead (blk,k) .device) := by
  have hb : s.pc.block = some blk := by rw [hpc]; rfl
  have hk : k < rblkReads := h.room blk k (Or.inl hpc)
  have hsent (j : Nat) : s.reads (blk,j) = .absent ↔ k ≤ j := by
    have hj := h.sent blk hb j
    rw [hpc] at hj
    exact hj
  have habs : s.reads (blk,k) = .absent := (hsent k).mpr (Nat.le_refl k)
  have hcnt : ({ s with pc := .issued blk k }.setRead (blk,k) .device).handledCnt = s.handledCnt := by
    rw [setRead_handledCnt rfl hk (by show ¬ (s.reads (blk,k)).Handled; rw [habs]; exact id)]
    exact (handledCnt_of_block hb).symm
  constructor
  case order =>
    have horder := h.order
    rw [hb] at horder
    exact horder
  case room =>
    intro b j hj
    rcases hj with hj | hj
    · cases hj
    · cases hj
      exact hk
  case issu =>
    have hissu := h.issu
    rw [hpc] at hissu
    exact hissu
  case cmpl =>
    rw [hcnt]
    exact h.cmpl
  case fresh =>
    intro b hbt j
    rw [setRead_of_ne]
    · exact h.fresh b hbt j
    · intro heq
      have horder := h.order
      rw [hb] at horder
      cases heq
      exact (List.nodup_cons.mp horder).1 hbt
  case sent =>
    intro b hblk j
    cases hblk
    show _ ↔ k + 1 ≤ j
    by_cases hj : j = k
    · simp [hj]
    · rw [setRead_of_ne _ (by simpa using hj)]
      show s.reads (blk,j) = .absent ↔ _
      rw [hsent j]
      omega
  case flying =>
    intro r hr
    by_cases hrk : r = (blk,k)
    · rw [hrk]
      rfl
    · rw [setRead_of_ne _ hrk] at hr
      rw [← h.flying r hr,hb]
      rfl
  case value =>
    intro r v hr
    rcases setRead_cases hr with ⟨-,hcases⟩ | ⟨-,hold⟩
    · cases hcases
    · have hval := h.value r v hold
      rw [hb] at hval
      exact hval
  case unique =>
    apply setRead_unique h.unique
    intro v hv
    cases hv
  case signal =>
    obtain ⟨hdone,-⟩ := h.signal.isOwed (by simp [hpc]) (by simp [hpc])
    refine Signal.owed hdone (fun b => by simp [BbtScan.setRead]) ?_
    intro hfull
    have hle := h.handledCnt_le
    have hcmpl := h.cmpl
    rw [hpc] at hle
    have hle : s.handledCnt ≤ k := hle
    have hfull : s.bbtCmplCnt = base + rblkReads := hfull
    omega

/-- The scan moves on within its block and has sent no read in between. -/
private theorem movePc (h : Barrier base s) {pc : ScanPc} {issu done : Nat}
    (hblock : pc.block = s.pc.block) (hsent : pc.sentCnt = s.pc.sentCnt)
    (hroom : ∀ blk k, pc = .submit blk k ∨ pc = .issued blk k → k < rblkReads)
    (hissu : issu = base + pc.issuedCnt)
    (hsignal : Signal base { s with pc := pc, bbtIssuCnt := issu, done := done }) :
    Barrier base { s with pc := pc, bbtIssuCnt := issu, done := done } := by
  constructor
  case order =>
    rw [hblock]
    exact h.order
  case room => exact hroom
  case issu => exact hissu
  case cmpl =>
    rw [h.cmpl,BbtScan.handledCnt,BbtScan.handledCnt,hblock]
  case fresh => exact h.fresh
  case sent =>
    rw [hblock,hsent]
    exact h.sent
  case flying =>
    rw [hblock]
    exact h.flying
  case value =>
    rw [hblock]
    exact h.value
  case unique => exact h.unique
  case signal => exact hsignal

private theorem countIssued (h : Barrier base s) {blk k : Nat} (hpc : s.pc = .issued blk k) :
    Barrier base { s with pc := nextRead blk k, bbtIssuCnt := s.bbtIssuCnt + 1 } := by
  have hk : k < rblkReads := h.room blk k (Or.inr hpc)
  have hnext : (nextRead blk k).block = some blk ∧ (nextRead blk k).issuedCnt = k + 1 ∧
      (nextRead blk k).sentCnt = k + 1 ∧ ∀ b, nextRead blk k ≠ .checking b := by
    rcases nextRead_cases hk with ⟨heq,-⟩ | ⟨heq,hlast⟩ <;> rw [heq]
    · exact ⟨rfl,rfl,rfl,nofun⟩
    · exact ⟨rfl,hlast.symm,hlast.symm,nofun⟩
  obtain ⟨hblock,hissued,hsent,hnot⟩ := hnext
  obtain ⟨hdone,hlast⟩ := h.signal.isOwed (by simp [hpc]) (by simp [hpc])
  apply h.movePc
  · rw [hblock,hpc]
    rfl
  · rw [hsent,hpc]
    rfl
  · intro b j hj
    rcases nextRead_cases hk with ⟨heq,hlt⟩ | ⟨heq,-⟩
    · rcases hj with hj | hj
      · cases heq.symm.trans hj
        exact hlt
      · cases heq.symm.trans hj
    · rcases hj with hj | hj <;> cases heq.symm.trans hj
  · rw [h.issu,hissued,hpc]
    rfl
  · exact Signal.owed hdone hnot hlast

/-- A completion handler moves on. -/
private theorem moveRead (h : Barrier base s) {r : RawRead} {p : ReadPc} {cmpl done : Nat} {sys : SysTbl}
    (hr : s.reads r ≠ .absent) (hp : p ≠ .absent) (hle : s.bbtCmplCnt ≤ cmpl)
    (hcmpl : cmpl = base + (s.setRead r p).handledCnt)
    (hflying : p = .device ∨ p = .marked → s.pc.block = some r.1)
    (hvalue : ∀ v, p = .counted v → v ≤ cmpl ∧ (v < base ∨ s.pc.block = some r.1 ∧ base < v) ∧
      ∀ x, s.reads x ≠ .counted v)
    (hsignal : Signal base ({ s with bbtCmplCnt := cmpl, done := done, sys := sys }.setRead r p)) :
    Barrier base ({ s with bbtCmplCnt := cmpl, done := done, sys := sys }.setRead r p) := by
  constructor
  case order => exact h.order
  case room => exact h.room
  case issu => exact h.issu
  case cmpl => exact hcmpl
  case fresh =>
    intro b hb k
    rw [setRead_of_ne]
    · exact h.fresh b hb k
    · intro heq
      exact hr (heq ▸ h.fresh b hb k)
  case sent =>
    intro b hb k
    by_cases hrk : (b,k) = r
    · rw [hrk,setRead_self]
      constructor
      · intro habs
        exact absurd habs hp
      · intro hle
        exact absurd (hrk ▸ (h.sent b hb k).mpr hle) hr
    · rw [setRead_of_ne _ hrk]
      exact h.sent b hb k
  case flying =>
    intro x hx
    by_cases hxr : x = r
    · rw [hxr,setRead_self] at hx
      rw [hxr]
      exact hflying hx
    · rw [setRead_of_ne _ hxr] at hx
      exact h.flying x hx
  case value =>
    intro x v hx
    rcases setRead_cases hx with ⟨rfl,hpv⟩ | ⟨-,hold⟩
    · obtain ⟨h1,h2,-⟩ := hvalue v hpv
      exact ⟨h1,h2⟩
    · obtain ⟨h1,h2⟩ := h.value x v hold
      exact ⟨Nat.le_trans h1 hle,h2⟩
  case unique => exact setRead_unique h.unique fun v hpv => (hvalue v hpv).2.2
  case signal => exact hsignal

private theorem mark (h : Barrier base s) {r : RawRead} {t : SysTbl} (hr : s.reads r = .device) :
    Barrier base ({ s with sys := t }.setRead r .marked) := by
  apply h.moveRead (r := r) (p := .marked) (by simp [hr]) (by simp) (Nat.le_refl _)
  case hcmpl =>
    rw [setRead_handledCnt_same (by rw [hr]; exact Iff.rfl)]
    exact h.cmpl
  case hflying =>
    intro _
    exact h.flying r (Or.inl hr)
  case hvalue => nofun
  case hsignal =>
    have hcounted (x : RawRead) (v : Nat) :
        ({ s with sys := t }.setRead r .marked).reads x = .counted v ↔ s.reads x = .counted v := by
      by_cases hx : x = r
      · simp [hx,hr]
      · rw [setRead_of_ne _ hx]
    cases h.signal with
    | owed hdone hpc hlast =>
      refine Signal.owed hdone hpc ?_
      intro hfull
      obtain ⟨x,hx⟩ := hlast hfull
      exact ⟨x,(hcounted x _).mpr hx⟩
    | given hpc hcmpl hlast =>
      refine Signal.given hpc hcmpl ?_
      intro x hx
      exact hlast x ((hcounted x _).mp hx)

private theorem countCompleted (h : Barrier base s) {r : RawRead} (hr : s.reads r = .marked) :
    Barrier base ({ s with bbtCmplCnt := s.bbtCmplCnt + 1 }.setRead r (.counted (s.bbtCmplCnt + 1))) := by
  have hb : s.pc.block = some r.1 := h.flying r (Or.inr hr)
  have hlt : r.2 < rblkReads := Nat.lt_of_lt_of_le (h.lt_sentCnt hb (by simp [hr])) h.sentCnt_le
  have hcnt : (s.setRead r (.counted (s.bbtCmplCnt + 1))).handledCnt = s.handledCnt + 1 :=
    setRead_handledCnt hb hlt (by rw [hr]; exact id)
  have hcmpl := h.cmpl
  apply h.moveRead (r := r) (p := .counted (s.bbtCmplCnt + 1)) (by simp [hr]) (by simp) (Nat.le_succ _)
  case hcmpl =>
    rw [hcnt,hcmpl]
    rfl
  case hflying => simp
  case hvalue =>
    intro v hv
    cases hv
    refine ⟨Nat.le_refl _,Or.inr ⟨hb,by omega⟩,?_⟩
    intro x hx
    exact Nat.not_succ_le_self _ (h.value x _ hx).1
  case hsignal =>
    cases h.signal with
    | owed hdone hpc _ =>
      refine Signal.owed hdone hpc ?_
      intro hfull
      have hfull : s.bbtCmplCnt + 1 = base + rblkReads := hfull
      exact ⟨r,by rw [setRead_self,hfull]⟩
    | given _ hfull _ =>
      -- this read was not yet counted
      have hhandled := h.handled_of_cmpl hfull hb hlt
      rw [Prod.mk.eta,hr] at hhandled
      exact absurd hhandled id

/-- A comparison in its turn finds the counters equal exactly for the last completion of the block. -/
private theorem compare_eq (h : Barrier base s) {r : RawRead} {v : Nat} (hr : s.reads r = .counted v)
    (hok : inTurn s (.compare r)) :
    v = s.bbtIssuCnt ∧ v = base + rblkReads ∧ (∃ blk, s.pc = .waiting blk) ∨
      v ≠ s.bbtIssuCnt ∧ v ≠ base + rblkReads := by
  obtain ⟨hequal,hearly⟩ := hok v hr
  have hissu := h.issu
  by_cases hv : v = s.bbtIssuCnt
  · obtain ⟨blk,hpc⟩ := hequal hv
    rw [hpc] at hissu
    exact Or.inl ⟨hv,hv.trans hissu,blk,hpc⟩
  · refine Or.inr ⟨hv,?_⟩
    intro hlast
    -- all reads were sent, and the last one is not yet counted as issued
    have hle := (h.value r v hr).1
    rw [hlast,h.cmpl] at hle
    have hsent := Nat.le_trans (Nat.le_of_add_le_add_left hle) h.handledCnt_le
    cases hpc : s.pc with
    | next =>
      rw [hpc] at hsent
      exact absurd hsent (by decide)
    | submit blk k =>
      rw [hpc] at hsent
      exact Nat.not_lt_of_le hsent (h.room blk k (Or.inl hpc))
    | issued blk k =>
      rw [hpc] at hsent hissu
      have hk := h.room blk k (Or.inr hpc)
      have hsent : rblkReads ≤ k + 1 := hsent
      have hissu : s.bbtIssuCnt = base + k := hissu
      obtain rfl : k = rblkReads - 1 := by omega
      exact hearly (by omega) blk hpc
    | waiting blk =>
      rw [hpc] at hissu
      exact hv (hlast.trans hissu.symm)
    | checking blk =>
      rw [hpc] at hissu
      exact hv (hlast.trans hissu.symm)

private theorem compare (h : Barrier base s) {r : RawRead} {v : Nat} (hr : s.reads r = .counted v)
    (hok : inTurn s (.compare r)) : Barrier base
      ({ s with done := if v = s.bbtIssuCnt then s.done + 1 else s.done }.setRead r .returned) := by
  apply h.moveRead (r := r) (p := .returned) (by simp [hr]) (by simp) (Nat.le_refl _)
  case hcmpl =>
    rw [setRead_handledCnt_same (by rw [hr]; exact Iff.rfl)]
    exact h.cmpl
  case hflying => simp
  case hvalue => simp
  case hsignal =>
    rcases h.compare_eq hr hok with ⟨hv,hlast,blk,hpc⟩ | ⟨hv,hlast⟩
    · rw [if_pos hv]
      rw [hlast] at hr
      cases h.signal with
      | owed hdone _ _ =>
        refine Signal.given ⟨blk,Or.inl ⟨hpc,congrArg (· + 1) hdone⟩⟩ ?_ ?_
        · have hle := (h.value r _ hr).1
          have hcnt := Nat.le_trans h.handledCnt_le h.sentCnt_le
          have hcmpl := h.cmpl
          show s.bbtCmplCnt = base + rblkReads
          omega
        · intro x hx
          rcases setRead_cases hx with ⟨-,heq⟩ | ⟨hne,hold⟩
          · cases heq
          · exact hne (h.unique x r _ hold hr)
      | given _ _ hnone => exact absurd hr (hnone r)
    · rw [if_neg hv]
      cases h.signal with
      | owed hdone hpc hfull =>
        refine Signal.owed hdone hpc ?_
        intro hcmpl
        obtain ⟨x,hx⟩ := hfull hcmpl
        refine ⟨x,?_⟩
        rw [setRead_of_ne]
        · exact hx
        · rintro rfl
          rw [hr] at hx
          exact hlast (ReadPc.counted.inj hx)
      | given hpc hcmpl hnone =>
        refine Signal.given hpc hcmpl ?_
        intro x hx
        rcases setRead_cases hx with ⟨-,heq⟩ | ⟨-,hold⟩
        · cases heq
        · exact hnone x hold

private theorem wake (h : Barrier base s) {blk : Nat} (hpc : s.pc = .waiting blk) (hdone : 0 < s.done) :
    Barrier base { s with pc := .checking blk, done := s.done - 1 } := by
  apply h.movePc
  · rw [hpc]
    rfl
  · rw [hpc]
    rfl
  · intro b k hk
    rcases hk with hk | hk <;> cases hk
  · rw [h.issu,hpc]
    rfl
  · cases h.signal with
    | owed hzero _ _ => exact absurd hzero (Nat.ne_of_gt hdone)
    | given hgiven hfull hnone =>
      obtain ⟨b,⟨-,hone⟩ | ⟨hb,-⟩⟩ := hgiven
      · exact Signal.given ⟨blk,Or.inr ⟨rfl,by rw [hone]⟩⟩ hfull hnone
      · rw [hpc] at hb
        cases hb

private theorem check (h : Barrier base s) {blk : Nat} {t : SysTbl} (hpc : s.pc = .checking blk) :
    Barrier (base + rblkReads) { s with pc := .next, sys := t } := by
  have hb : s.pc.block = some blk := by rw [hpc]; rfl
  cases h.signal with
  | owed _ hnot _ => exact absurd hpc (hnot blk)
  | given hgiven hcmpl hnone =>
    have hdone : s.done = 0 := by
      obtain ⟨b,⟨hw,-⟩ | ⟨-,hdone⟩⟩ := hgiven
      · rw [hpc] at hw
        cases hw
      · exact hdone
    constructor
    case order =>
      have horder := h.order
      rw [hb] at horder
      exact (List.nodup_cons.mp horder).2
    case room =>
      intro b k hk
      rcases hk with hk | hk <;> cases hk
    case issu =>
      have hissu := h.issu
      rw [hpc] at hissu
      exact hissu
    case cmpl => exact hcmpl
    case fresh => exact h.fresh
    case sent =>
      intro b hblk
      cases hblk
    case flying =>
      intro r hr
      have hblock := h.flying r hr
      have hne : s.reads r ≠ .absent := by
        rcases hr with hr | hr <;> · rw [show s.reads r = _ from hr]; simp
      have hlt := Nat.lt_of_lt_of_le (h.lt_sentCnt hblock hne) h.sentCnt_le
      have hhandled := h.handled_of_cmpl hcmpl hblock hlt
      rcases hr with hr | hr <;>
      · rw [Prod.mk.eta,show s.reads r = _ from hr] at hhandled
        exact absurd hhandled id
    case value =>
      intro r v hr
      have hle := (h.value r v hr).1
      refine ⟨hle,Or.inl ?_⟩
      have hne : v ≠ base + rblkReads := fun heq => hnone r (heq ▸ hr)
      omega
    case unique => exact h.unique
    case signal =>
      refine Signal.owed hdone (fun b hb => by cases hb) ?_
      intro hfull
      have hfull : s.bbtCmplCnt = base + rblkReads + rblkReads := hfull
      have : 0 < rblkReads := by decide
      omega

theorem step (h : Barrier base s) (heff : ScanEffect raw s l s') (hok : inTurn s l) :
    ∃ base', Barrier base' s' := by
  cases heff with
  | initCompletion hpc htodo => exact ⟨base,h.initCompletion hpc htodo⟩
  | submit hpc => exact ⟨base,h.submit hpc⟩
  | submitFail hpc => exact absurd hok id
  | countIssued hpc => exact ⟨base,h.countIssued hpc⟩
  | mark hr _ => exact ⟨base,h.mark hr⟩
  | countCompleted hr => exact ⟨base,h.countCompleted hr⟩
  | compare hr => exact ⟨base,h.compare hr hok⟩
  | wake hpc hdone => exact ⟨base,h.wake hpc hdone⟩
  | check hpc _ => exact ⟨base + rblkReads,h.check hpc⟩

/-- A block is judged after the completions of all its reads are counted. -/
theorem handled_of_checking (hb : Barrier base s) {blk k : Nat} (hpc : s.pc = .checking blk)
    (hk : k < rblkReads) : (s.reads (blk,k)).Handled := by
  cases hb.signal with
  | owed _ hnot _ => exact absurd hpc (hnot blk)
  | given _ hcmpl _ => exact hb.handled_of_cmpl hcmpl (by rw [hpc]; rfl) hk

/-- The waiter whose reads are all handled can go on. -/
theorem done_pos (hb : Barrier base s) {blk : Nat} (hpc : s.pc = .waiting blk)
    (hall : ∀ k < rblkReads, s.reads (blk,k) = .returned) : 0 < s.done := by
  have hblock : s.pc.block = some blk := by rw [hpc]; rfl
  cases hb.signal with
  | owed _ _ hlast =>
    have hcnt : s.handledCnt = rblkReads := by
      rw [handledCnt_of_block hblock,countWhere,Finset.filter_true_of_mem,Finset.card_range]
      intro k hk
      rw [hall k (Finset.mem_range.mp hk)]
      trivial
    obtain ⟨r,hr⟩ := hlast (by rw [hb.cmpl,hcnt])
    -- the last completion of the block is one of its reads
    rcases (hb.value r _ hr).2 with hlt | ⟨hr1,-⟩
    · exact absurd hlt (Nat.not_lt.mpr (Nat.le_add_right _ _))
    · have hlt := Nat.lt_of_lt_of_le (hb.lt_sentCnt hr1 (by simp [hr])) hb.sentCnt_le
      obtain rfl : blk = r.1 := Option.some.inj (hblock.symm.trans hr1)
      have hret := hall r.2 hlt
      rw [Prod.mk.eta,hr] at hret
      cases hret
  | given hgiven _ _ =>
    obtain ⟨b,⟨-,hone⟩ | ⟨hb,-⟩⟩ := hgiven
    · omega
    · rw [hpc] at hb
      cases hb

end Barrier

/-- The handler has looked at the data. -/
def ReadPc.Seen : ReadPc → Prop
  | .absent | .device => False
  | _ => True

theorem ReadPc.Handled.seen {p : ReadPc} (h : p.Handled) : p.Seen := by
  cases p with
  | absent => exact h
  | device => exact h
  | _ => trivial

/-- The blocks of the scan are in the table, and bad reads that were looked at have their bit set. -/
structure Marked (raw : RawBytes) (s : BbtScan) : Prop where
  lt : ∀ blk ∈ s.pc.block.toList ++ s.todo, blk < cfgNandBlockNum
  read_lt : ∀ r, s.reads r ≠ .absent → r.1 < cfgNandBlockNum
  bit : ∀ r, raw.bad r = true → (s.reads r).Seen → ((s.sys.bmitbl r.1).bbt r.lun).testBit r.ch = true

theorem markBbtTbl_bbt {t t' : SysTbl} {blk lun ch : Nat} (hblk : blk < cfgNandBlockNum)
    (h : markBbtTbl t blk lun ch true = .ok t') :
    ((t'.bmitbl blk).bbt lun).testBit ch = true ∧ ∀ b m c,
      ((t.bmitbl b).bbt m).testBit c = true → ((t'.bmitbl b).bbt m).testBit c = true := by
  rw [markBbtTbl,getBmiItem_of_lt hblk] at h
  cases h
  constructor
  · simp [SysTbl.setBbt,Nat.testBit_or,Nat.one_shiftLeft]
  · intro b m c hbit
    by_cases hb : b = blk
    · by_cases hm : m = lun
      · subst hb hm
        simp [SysTbl.setBbt,Nat.testBit_or,hbit]
      · simp [SysTbl.setBbt,hb,Function.update_of_ne hm,hb ▸ hbit]
    · simp [SysTbl.setBbt,Function.update_of_ne hb,hbit]

theorem rblkBbtCheckAvailable_bbt {t t' : SysTbl} {blk : Nat} (h : rblkBbtCheckAvailable t blk = .ok t')
    (b : Nat) : (t'.bmitbl b).bbt = (t.bmitbl b).bbt := by
  unfold rblkBbtCheckAvailable insertBlkToFreeList at h
  cases hbmi : getBmiItem blk with
  | error x => simp [hbmi,bind,Except.bind] at h
  | ok bmi =>
    simp only [hbmi,bind,Except.bind,pure,Except.pure] at h
    split at h
    · cases h
      rfl
    · cases hpush : pushBlkToPool t blk with
      | error x => simp [hpush] at h
      | ok t₁ =>
        simp only [hpush] at h
        cases h
        rw [SysTbl.setState_bbt,pushBlkToPool_bmitbl hpush]

theorem nextRead_block (blk k : Nat) : (nextRead blk k).block = some blk := by
  unfold nextRead
  split <;> rfl

/-- A completion handler that marks nothing. -/
private theorem Marked.moveRead (h : Marked raw s) {r : RawRead} {p : ReadPc} {cmpl done : Nat}
    (hr : s.reads r ≠ .absent) (hseen : raw.bad r = true → p.Seen → (s.reads r).Seen) :
    Marked raw ({ s with bbtCmplCnt := cmpl, done := done }.setRead r p) := by
  refine ⟨h.lt,?_,?_⟩
  · intro x hx
    by_cases hxr : x = r
    · exact h.read_lt x (hxr ▸ hr)
    · rw [setRead_of_ne _ hxr] at hx
      exact h.read_lt x hx
  · intro x hbad hx
    by_cases hxr : x = r
    · rw [hxr,setRead_self] at hx
      exact h.bit x hbad (hxr ▸ hseen (hxr ▸ hbad) hx)
    · rw [setRead_of_ne _ hxr] at hx
      exact h.bit x hbad hx

theorem ScanEffect.marked (heff : ScanEffect raw s l s') (h : Marked raw s) : Marked raw s' := by
  cases heff with
  | initCompletion hpc htodo =>
    have hlt := h.lt
    rw [hpc,htodo] at hlt
    exact ⟨hlt,h.read_lt,h.bit⟩
  | @submit blk k hpc =>
    have hlt := h.lt
    rw [hpc] at hlt
    refine ⟨hlt,?_,?_⟩
    · intro r hr
      by_cases hrk : r = (blk,k)
      · rw [hrk]
        exact hlt blk List.mem_cons_self
      · rw [setRead_of_ne _ hrk] at hr
        exact h.read_lt r hr
    · intro r hbad hseen
      by_cases hrk : r = (blk,k)
      · rw [hrk,setRead_self] at hseen
        exact absurd hseen id
      · rw [setRead_of_ne _ hrk] at hseen
        exact h.bit r hbad hseen
  | submitFail hpc | countIssued hpc =>
    have hlt := h.lt
    rw [hpc] at hlt
    refine ⟨?_,h.read_lt,h.bit⟩
    rw [nextRead_block]
    exact hlt
  | @mark r t hr hmark =>
    have hblk := h.read_lt r (by simp [hr])
    by_cases hbad : raw.bad r = true
    · rw [if_pos hbad] at hmark
      obtain ⟨hbit,hkeep⟩ := markBbtTbl_bbt hblk hmark
      refine ⟨h.lt,?_,?_⟩
      · intro x hx
        by_cases hxr : x = r
        · exact hxr ▸ hblk
        · rw [setRead_of_ne _ hxr] at hx
          exact h.read_lt x hx
      · intro x hxbad hx
        by_cases hxr : x = r
        · rw [hxr]
          exact hbit
        · rw [setRead_of_ne _ hxr] at hx
          exact hkeep _ _ _ (h.bit x hxbad hx)
    · rw [if_neg hbad] at hmark
      subst hmark
      exact h.moveRead (by simp [hr]) fun hb _ => absurd hb hbad
  | countCompleted hr => exact h.moveRead (by simp [hr]) fun _ _ => by rw [hr]; trivial
  | compare hr => exact h.moveRead (by simp [hr]) fun _ _ => by rw [hr]; trivial
  | wake hpc hdone =>
    have hlt := h.lt
    rw [hpc] at hlt
    exact ⟨hlt,h.read_lt,h.bit⟩
  | check hpc hcheck =>
    refine ⟨fun b hb => h.lt b (List.mem_append_right _ hb),h.read_lt,?_⟩
    intro r hbad hseen
    rw [rblkBbtCheckAvailable_bbt hcheck]
    exact h.bit r hbad hseen

end Step

theorem marked_init (raw : RawBytes) (t : SysTbl) : Marked raw (BbtScan.init t) := by
  constructor
  case lt =>
    intro b hb
    exact (mem_scanOrder hb).2
  case read_lt =>
    intro r hr
    exact absurd rfl hr
  case bit =>
    intro r _ hseen
    exact absurd hseen id

section Runs

variable (raw : RawBytes) (ok : BbtScan → ScanLabel → Prop) {s : BbtScan} {blk k : Nat}

/-- The first block of the scan is taken up. -/
def BbtScan.first (t : SysTbl) : BbtScan :=
  { BbtScan.init t with pc := .submit 127 0, todo := scanOrder.tail }

theorem first_reached (hok : ∀ s, ok s .initCompletion) (t : SysTbl) :
    Reaches (BbtScan.step raw) ok (BbtScan.init t) (BbtScan.first t) :=
  Reaches.single (hok _) (by rfl : (BbtScan.init t).step raw .initCompletion = some (BbtScan.first t))

/-- The remaining `n` reads of the block are issued before the device answers any of them. -/
theorem issue_rest (hsubmit : ∀ s, ok s .submit) (hcount : ∀ s, ok s .countIssued) {n : Nat}
    (hn : k + n = rblkReads) (hpc : s.pc = if k < rblkReads then .submit blk k else .waiting blk) :
    ∃ s', Reaches (BbtScan.step raw) ok s s' ∧ s'.pc = .waiting blk ∧ s'.done = s.done ∧
      (∀ j, k ≤ j → j < rblkReads → s'.reads (blk,j) = .device) ∧
      (∀ j, j < k → s'.reads (blk,j) = s.reads (blk,j)) ∧ s'.todo = s.todo := by
  induction n generalizing s k with
  | zero =>
    rw [if_neg (by omega)] at hpc
    refine ⟨s,Reaches.refl s,hpc,rfl,?_,fun _ _ => rfl,rfl⟩
    intro j h1 h2
    omega
  | succ n ih =>
    rw [if_pos (by omega)] at hpc
    let s₁ := { s with pc := .issued blk k }.setRead (blk,k) .device
    let s₂ := { s₁ with pc := nextRead blk k, bbtIssuCnt := s₁.bbtIssuCnt + 1 }
    have hstep₁ : s.step raw .submit = some s₁ := by simp only [BbtScan.step,hpc]; rfl
    have hstep₂ : s₁.step raw .countIssued = some s₂ := rfl
    obtain ⟨s',hrun,hpc',hdone,hnew,hold,htodo⟩ := ih (s := s₂) (k := k + 1) (by omega) rfl
    refine ⟨s',((Reaches.single (hsubmit s) hstep₁).tail (hcount s₁) hstep₂).trans hrun,hpc',hdone,?_,?_,
      htodo⟩
    · intro j h1 h2
      by_cases hj : j = k
      · rw [hj,hold k (Nat.lt_succ_self k)]
        exact setRead_self ..
      · exact hnew j (by omega) h2
    · intro j hj
      rw [hold j (by omega)]
      exact setRead_of_ne (s := { s with pc := .issued blk k }) _ (by simp; omega)

/-- A handler whose read is back from the device can mark. -/
theorem mark_enabled {r : RawRead} (hblk : r.1 < cfgNandBlockNum) (hr : s.reads r = .device) :
    ∃ t, s.step raw (.mark r) = some ({ s with sys := t }.setRead r .marked) := by
  by_cases hbad : raw.bad r = true
  · cases hmark : markBbtTbl s.sys r.1 r.lun r.ch true with
    | error e => simp [markBbtTbl,getBmiItem_of_lt hblk,bind,Except.bind,pure,Except.pure] at hmark
    | ok t =>
      refine ⟨t,?_⟩
      simp only [BbtScan.step,hr,if_pos hbad,hmark]
      rfl
  · refine ⟨s.sys,?_⟩
    simp only [BbtScan.step,hr,if_neg hbad]

/-- The handlers of the first `n` reads run while the scan waits. -/
theorem handle_first (hblk : blk < cfgNandBlockNum) {n : Nat} (hn : n ≤ rblkReads)
    (hpc : s.pc = .waiting blk) (hdev : ∀ j, j < rblkReads → s.reads (blk,j) = .device) :
    ∃ s', Reaches (BbtScan.step raw) inTurn s s' ∧ s'.pc = .waiting blk ∧
      (∀ j, j < n → s'.reads (blk,j) = .returned) ∧
      (∀ j, n ≤ j → j < rblkReads → s'.reads (blk,j) = .device) ∧ s'.todo = s.todo := by
  induction n with
  | zero => exact ⟨s,Reaches.refl s,hpc,fun _ h => absurd h (Nat.not_lt_zero _),fun j _ => hdev j,rfl⟩
  | succ n ih =>
    obtain ⟨u,hrun,hupc,hret,hudev,htodo⟩ := ih (Nat.le_of_succ_le hn)
    have hdevn := hudev n (Nat.le_refl n) hn
    obtain ⟨t,h₁⟩ := mark_enabled raw (r := (blk,n)) hblk hdevn
    let v := u.bbtCmplCnt + 1
    let u₁ := { u with sys := t }.setRead (blk,n) .marked
    let u₂ := { u₁ with bbtCmplCnt := v }.setRead (blk,n) (.counted v)
    let u₃ := { u₂ with done := if v = u₂.bbtIssuCnt then u₂.done + 1 else u₂.done }.setRead (blk,n) .returned
    have h₂ : u₁.step raw (.countCompleted (blk,n)) = some u₂ := by simp [BbtScan.step,u₁,u₂,v]; rfl
    have h₃ : u₂.step raw (.compare (blk,n)) = some u₃ := by simp [BbtScan.step,u₂,u₃]
    have hturn : inTurn u₂ (.compare (blk,n)) := by
      intro _ _
      exact ⟨fun _ => ⟨blk,hupc⟩,fun _ b hb => by cases hupc.symm.trans hb⟩
    have hother (j : Nat) (hj : j ≠ n) : u₃.reads (blk,j) = u.reads (blk,j) := by
      have hne : ((blk,j) : RawRead) ≠ (blk,n) := by simpa using hj
      exact (setRead_of_ne _ hne).trans ((setRead_of_ne _ hne).trans (setRead_of_ne _ hne))
    have hrun₁ := hrun.tail (l := .mark (blk,n)) trivial h₁
    have hrun₂ := hrun₁.tail (l := .countCompleted (blk,n)) trivial h₂
    refine ⟨u₃,hrun₂.tail hturn h₃,hupc,?_,?_,htodo⟩
    · intro j hj
      by_cases hjn : j = n
      · rw [hjn]
        exact setRead_self ..
      · rw [hother j hjn]
        exact hret j (by omega)
    · intro j h1 h2
      rw [hother j (by omega)]
      exact hudev j (by omega) h2

/-- The handlers of the remaining `n` reads run before the reads are counted as issued. -/
theorem answered_at_once (hraw : ∀ r, raw.bad r = false) {n : Nat} (hn : k + n = rblkReads)
    (hpc : s.pc = if k < rblkReads then .submit blk k else .waiting blk)
    (hcnt : s.bbtIssuCnt = s.bbtCmplCnt) :
    ∃ s', Reaches (BbtScan.step raw) always s s' ∧ s'.pc = .waiting blk ∧ s'.done = s.done ∧
      (∀ j, k ≤ j → j < rblkReads → s'.reads (blk,j) = .returned) ∧
      ∀ j, j < k → s'.reads (blk,j) = s.reads (blk,j) := by
  induction n generalizing s k with
  | zero =>
    rw [if_neg (by omega)] at hpc
    refine ⟨s,Reaches.refl s,hpc,rfl,?_,fun _ _ => rfl⟩
    intro j h1 h2
    omega
  | succ n ih =>
    rw [if_pos (by omega)] at hpc
    let v := s.bbtCmplCnt + 1
    let s₁ := { s with pc := .issued blk k }.setRead (blk,k) .device
    let s₂ := s₁.setRead (blk,k) .marked
    let s₃ := { s₂ with bbtCmplCnt := v }.setRead (blk,k) (.counted v)
    let s₄ := s₃.setRead (blk,k) .returned
    let s₅ := { s₄ with pc := nextRead blk k, bbtIssuCnt := s₄.bbtIssuCnt + 1 }
    have h₁ : s.step raw .submit = some s₁ := by simp only [BbtScan.step,hpc]; rfl
    have h₂ : s₁.step raw (.mark (blk,k)) = some s₂ := by simp [BbtScan.step,hraw,s₁,s₂]
    have h₃ : s₂.step raw (.countCompleted (blk,k)) = some s₃ := by simp [BbtScan.step,s₂,s₃,v]; rfl
    have hv : v ≠ s₃.bbtIssuCnt := by
      show s.bbtCmplCnt + 1 ≠ s.bbtIssuCnt
      omega
    have h₄ : s₃.step raw (.compare (blk,k)) = some s₄ := by
      simp only [BbtScan.step,s₃,setRead_self]
      rw [if_neg hv]
    have h₅ : s₄.step raw .countIssued = some s₅ := rfl
    obtain ⟨s',hrun,hpc',hdone,hnew,hold⟩ := ih (s := s₅) (k := k + 1) (by omega) rfl
      (congrArg (· + 1) hcnt)
    have hrun₃ : Reaches (BbtScan.step raw) always s s₃ :=
      ((Reaches.single trivial h₁).tail trivial h₂).tail trivial h₃
    refine ⟨s',((hrun₃.tail trivial h₄).tail trivial h₅).trans hrun,hpc',hdone,?_,?_⟩
    · intro j h1 h2
      by_cases hj : j = k
      · rw [hj,hold k (Nat.lt_succ_self k)]
        exact setRead_self ..
      · exact hnew j (by omega) h2
    · intro j hj
      have hne : ((blk,j) : RawRead) ≠ (blk,k) := by simp; omega
      rw [hold j (by omega)]
      exact (setRead_of_ne _ hne).trans ((setRead_of_ne _ hne).trans
        ((setRead_of_ne _ hne).trans (setRead_of_ne _ hne)))

end Runs

/-- In runs whose comparisons are in their turn, a block is judged when the completions of all its raw
reads are counted and the bad ones are in the table, and a comparison that is still to come cannot
wake the waiter. A waiter whose reads are all handled can go on. -/
theorem judged_after_all_reads {raw : RawBytes} {t : SysTbl} {s : BbtScan}
    (hrun : Reaches (BbtScan.step raw) inTurn (BbtScan.init t) s) :
    (∀ blk, s.pc = .checking blk → ∀ k < rblkReads, (s.reads (blk,k)).Handled ∧
      (∀ v, s.reads (blk,k) = .counted v → v < s.bbtIssuCnt) ∧
      (raw.bad (blk,k) = true →
        ((s.sys.bmitbl blk).bbt (k / cfgNandChannelNum)).testBit (k % cfgNandChannelNum) = true)) ∧
    ∀ blk, s.pc = .waiting blk → (∀ k < rblkReads, s.reads (blk,k) = .returned) →
      ∃ s', s.step raw .wake = some s' ∧ s'.pc = .checking blk := by
  obtain ⟨⟨base,hb⟩,hm⟩ := hrun.invariant (fun s => (∃ base, Barrier base s) ∧ Marked raw s)
    ⟨⟨0,barrier_init t⟩,marked_init raw t⟩ fun u l u' hu hok hl =>
      ⟨hu.1.elim fun _ h => h.step (step_scanEffect hl) hok,(step_scanEffect hl).marked hu.2⟩
  constructor
  · intro blk hpc k hk
    have hhandled := hb.handled_of_checking hpc hk
    refine ⟨hhandled,?_,fun hbad => hm.bit (blk,k) hbad hhandled.seen⟩
    cases hb.signal with
    | owed _ hnot _ => exact absurd hpc (hnot blk)
    | given _ hcmpl hnone =>
      intro v hv
      have hissu := hb.issu
      rw [hpc] at hissu
      apply Nat.lt_of_le_of_ne
      · rw [hissu]
        exact hcmpl ▸ (hb.value _ v hv).1
      · intro heq
        exact hnone (blk,k) (hissu ▸ heq ▸ hv)
  · intro blk hpc hall
    have hdone := hb.done_pos hpc hall
    refine ⟨{ s with pc := .checking blk, done := s.done - 1 },?_,rfl⟩
    simp only [BbtScan.step,hpc,if_pos hdone]

/-- All reads of block 127 are issued before the first one is handled. -/
theorem judged_after_all_reads_once : ∃ s s', Reaches (BbtScan.step fun _ _ _ _ => 0xff) inTurn
    (BbtScan.init sysTblInit) s ∧ s.step (fun _ _ _ _ => 0xff) .wake = some s' ∧
      s'.pc = .checking 127 := by
  obtain ⟨u,hissue,hupc,-,hdev,-⟩ := issue_rest (fun _ _ _ _ => 0xff) inTurn
    (s := BbtScan.first sysTblInit) (k := 0) (n := rblkReads) (fun _ => trivial) (fun _ => trivial)
    (Nat.zero_add _) rfl
  obtain ⟨s,hhandle,hpc,hret,-⟩ := handle_first (fun _ _ _ _ => 0xff) (by decide)
    (Nat.le_refl rblkReads) hupc fun j hj => hdev j (Nat.zero_le j) hj
  have hrun := ((first_reached _ _ (fun _ => trivial) sysTblInit).trans hissue).trans hhandle
  obtain ⟨s',hwake,hpc'⟩ := (judged_after_all_reads hrun).2 127 hpc hret
  exact ⟨s,s',hrun,hwake,hpc'⟩

/-- The first read of block 127 is handled while it is the only one that is counted as issued, and the
block is judged with a read still at the device. In the second run the handlers are always ahead of
the increments: all reads are handled and the scan waits for ever. -/
theorem judged_too_early_or_never :
    (∃ s, Reaches (BbtScan.step fun _ _ _ _ => 0xff) always (BbtScan.init sysTblInit) s ∧
      s.pc = .checking 127 ∧ s.reads (127,1) = .device) ∧
    ∃ s, Reaches (BbtScan.step fun _ _ _ _ => 0xff) always (BbtScan.init sysTblInit) s ∧
      s.pc = .waiting 127 ∧ (∀ k < rblkReads, s.reads (127,k) = .returned) ∧
      s.step (fun _ _ _ _ => 0xff) .wake = none := by
  have hfirst := first_reached (fun _ _ _ _ => 0xff) always (fun _ => trivial) sysTblInit
  constructor
  · let s₁ := { BbtScan.first sysTblInit with pc := .issued 127 0 }.setRead (127,0) .device
    let s₂ := { s₁ with pc := .submit 127 1, bbtIssuCnt := 1 }
    let s₃ := s₂.setRead (127,0) .marked
    let s₄ := { s₃ with bbtCmplCnt := 1 }.setRead (127,0) (.counted 1)
    let s₅ := { s₄ with done := 1 }.setRead (127,0) .returned
    let labels : List ScanLabel :=
      [.submit,.countIssued,.mark (127,0),.countCompleted (127,0),.compare (127,0)]
    have h : Reaches (BbtScan.step fun _ _ _ _ => 0xff) always (BbtScan.first sysTblInit) s₅ :=
      Reaches.of_foldlM (rfl : labels.foldlM (BbtScan.step fun _ _ _ _ => 0xff) _ = some s₅)
    obtain ⟨s,hissue,hpc,hdone,hdev,-⟩ := issue_rest (fun _ _ _ _ => 0xff) always
      (s := s₅) (k := 1) (n := 127) (fun _ => trivial) (fun _ => trivial) rfl rfl
    have hwake : s.step (fun _ _ _ _ => 0xff) .wake =
        some { s with pc := .checking 127, done := s.done - 1 } := by
      simp only [BbtScan.step,hpc]
      rw [if_pos]
      rw [hdone]
      decide
    exact ⟨_,((hfirst.trans h).trans hissue).tail trivial hwake,rfl,hdev 1 (by decide) (by decide)⟩
  · obtain ⟨s,hrun,hpc,hdone,hret,-⟩ := answered_at_once (fun _ _ _ _ => 0xff)
      (s := BbtScan.first sysTblInit) (k := 0) (n := rblkReads) (fun _ => rfl) (Nat.zero_add _) rfl rfl
    refine ⟨s,hfirst.trans hrun,hpc,fun k hk => hret k (Nat.zero_le k) hk,?_⟩
    simp only [BbtScan.step,hpc]
    rw [if_neg]
    rw [hdone]
    decide

end Sdssd.Host
