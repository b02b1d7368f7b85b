import Mathlib.Data.List.Nodup
import Sdssd.Framework.Log
import Sdssd.Framework.Steps
import Sdssd.Fw.Datapath

/-!
# The flow of read and write commands

An accepted read or write command is queued, requested, answered and completed, once each, whatever
the port does. The log of messages tells for each entry how far its command is.
-/

namespace Sdssd.Fw

open Framework

/-- How far the command of an entry is, as the messages show it. -/
inductive Phase
  | idle
  | queued
  | waiting
  | answered
  deriving DecidableEq, Repr

/-- The entry that a message is about and the phase it starts. -/
def HdcEvent.starts : HdcEvent → Option (Nat × Phase)
  | .nvmeCmd e => some (e,.queued)
  | .cmdReq e _ => some (e,.waiting)
  | .cmdRsp e => some (e,.answered)
  | .cmdCpl e _ => some (e,.idle)
  | .datapath _ _ => none

def phaseAfter (e : Nat) (p : Phase) (ev : HdcEvent) : Phase :=
  match ev.starts with
  | some (x,q) => if x = e then q else p
  | none => p

def phaseOf (log : List HdcEvent) (e : Nat) : Phase := log.foldl (phaseAfter e) .idle

theorem phaseOf_snoc (log : List HdcEvent) (ev : HdcEvent) (e : Nat) :
    phaseOf (log ++ [ev]) e = phaseAfter e (phaseOf log e) ev := by
  simp [phaseOf]

theorem phaseOf_snoc_self {log : List HdcEvent} {ev : HdcEvent} {e : Nat} {p : Phase}
    (h : ev.starts = some (e,p)) : phaseOf (log ++ [ev]) e = p := by
  simp [phaseOf_snoc,phaseAfter,h]

theorem phaseOf_snoc_of_ne {log : List HdcEvent} {ev : HdcEvent} {e x : Nat} {p : Phase}
    (h : ev.starts = some (x,p)) (hne : e ≠ x) : phaseOf (log ++ [ev]) e = phaseOf log e := by
  simp [phaseOf_snoc,phaseAfter,h,Ne.symm hne]

/-- Each command is followed by one request, its response and one completion. Requests were set up for
their entry, and so were completions. -/
def phifRule (log : List HdcEvent) : HdcEvent → Prop
  | .nvmeCmd e => phaseOf log e = .idle
  | .cmdReq e req => phaseOf log e = .queued ∧ ∃ r, req = some r ∧ r.tag = e
  | .cmdRsp e => phaseOf log e = .waiting
  | .cmdCpl e cpl => phaseOf log e = .answered ∧ cpl.tag = e
  | .datapath _ _ => True

/-- The commands in the order of their arrival. -/
def arrivals (log : List HdcEvent) : List Nat :=
  log.filterMap fun
    | .nvmeCmd e => some e
    | _ => none

/-- The requests in the order in which they leave. -/
def requests (log : List HdcEvent) : List Nat :=
  log.filterMap fun
    | .cmdReq e _ => some e
    | _ => none

/-- The entry that a datapath function works on: none, one from the command queue, or one whose
completion is due. -/
inductive Hand
  | free
  | cmd (e : Nat)
  | cpl (e : Nat)

def Hand.cmds : Hand → List Nat
  | .cmd e => [e]
  | _ => []

def Hand.cpls : Hand → List Nat
  | .cpl e => [e]
  | _ => []

/-- The entry holds a read or write command of its own tag. -/
def Hdc.Saved (s : Hdc) (e : Nat) : Prop :=
  (s.entry e).cmdTag = e ∧ (s.entry e).sqe.IsRw

/-- Queues and state byte of an entry agree with the messages. -/
inductive Fits (h : Hand) (s : Hdc) (e : Nat) : Prop
  | idle (hp : phaseOf s.log e = .idle) (hcmd : e ∉ h.cmds ++ s.cmdPend) (hcpl : e ∉ h.cpls ++ s.cplPend)
      (hstate : .nvmeCmd e ∈ s.log → (s.entry e).state = .complete)
  | queued (hp : phaseOf s.log e = .queued) (hcmd : e ∈ h.cmds ++ s.cmdPend)
      (hcpl : e ∉ h.cpls ++ s.cplPend) (hstate : (s.entry e).state = .queued) (hsaved : s.Saved e)
  | waiting (hp : phaseOf s.log e = .waiting) (hcmd : e ∉ h.cmds ++ s.cmdPend)
      (hcpl : e ∉ h.cpls ++ s.cplPend) (hstate : (s.entry e).state = .waitPhifRsp) (hsaved : s.Saved e)
  | answered (hp : phaseOf s.log e = .answered) (hcmd : e ∉ h.cmds ++ s.cmdPend)
      (hcpl : e ∈ h.cpls ++ s.cplPend)
      (hstate : (s.entry e).state = .phifCplReady ∧ (s.cpl e).tag = e ∨
        (s.entry e).state = .hasPhifRsp ∧ h = .cpl e) (hsaved : s.Saved e)

structure Flowing (h : Hand) (s : Hdc) : Prop where
  fits : ∀ e, Fits h s e
  cmdNodup : (h.cmds ++ s.cmdPend).Nodup
  cplNodup : (h.cpls ++ s.cplPend).Nodup
  allowed : Allowed phifRule s.log
  order : arrivals s.log = requests s.log ++ (h.cmds ++ s.cmdPend)

/-- Entries that a step is not about. -/
theorem Fits.congr {h h' : Hand} {s s' : Hdc} {e : Nat} (hf : Fits h s e)
    (hp : phaseOf s'.log e = phaseOf s.log e)
    (hcmd : e ∈ h'.cmds ++ s'.cmdPend ↔ e ∈ h.cmds ++ s.cmdPend)
    (hcpl : e ∈ h'.cpls ++ s'.cplPend ↔ e ∈ h.cpls ++ s.cplPend) (hentry : s'.entry e = s.entry e)
    (hc : s'.cpl e = s.cpl e) (hused : .nvmeCmd e ∈ s'.log → .nvmeCmd e ∈ s.log)
    (hhand : h = .cpl e → h' = .cpl e) : Fits h' s' e := by
  have hsaved : s'.Saved e ↔ s.Saved e := by rw [Hdc.Saved,Hdc.Saved,hentry]
  cases hf with
  | idle h1 h2 h3 h4 =>
    refine .idle (hp.trans h1) (hcmd.not.mpr h2) (hcpl.not.mpr h3) ?_
    rw [hentry]
    exact fun hu => h4 (hused hu)
  | queued h1 h2 h3 h4 h5 =>
    exact .queued (hp.trans h1) (hcmd.mpr h2) (hcpl.not.mpr h3) (hentry ▸ h4) (hsaved.mpr h5)
  | waiting h1 h2 h3 h4 h5 =>
    exact .waiting (hp.trans h1) (hcmd.not.mpr h2) (hcpl.not.mpr h3) (hentry ▸ h4) (hsaved.mpr h5)
  | answered h1 h2 h3 h4 h5 =>
    refine .answered (hp.trans h1) (hcmd.not.mpr h2) (hcpl.mpr h3) ?_ (hsaved.mpr h5)
    rw [hentry,hc]
    exact h4.imp id fun h => ⟨h.1,hhand h.2⟩

namespace Flowing

variable {env : HdcEnv} {s : Hdc} {e : Nat} {h : Hand}

theorem init : Flowing .free Hdc.init := by
  constructor
  case fits =>
    intro e
    exact .idle rfl List.not_mem_nil List.not_mem_nil nofun
  case cmdNodup => exact List.nodup_nil
  case cplNodup => exact List.nodup_nil
  case allowed => exact Allowed.nil
  case order => rfl

/-- What an entry in hand is. -/
theorem of_cmd (hs : Flowing (.cmd e) s) : phaseOf s.log e = .queued ∧ e ∉ s.cmdPend ∧
    e ∉ s.cplPend ∧ (s.entry e).state = .queued ∧ s.Saved e := by
  have hnot := (List.nodup_cons.mp hs.cmdNodup).1
  have hmem : e ∈ (Hand.cmd e).cmds ++ s.cmdPend := List.mem_cons_self
  cases hs.fits e with
  | idle _ hcmd _ _ => exact absurd hmem hcmd
  | queued hp _ hcpl hstate hsaved => exact ⟨hp,hnot,hcpl,hstate,hsaved⟩
  | waiting _ hcmd _ _ _ => exact absurd hmem hcmd
  | answered _ hcmd _ _ _ => exact absurd hmem hcmd

theorem of_cpl (hs : Flowing (.cpl e) s) : phaseOf s.log e = .answered ∧ e ∉ s.cmdPend ∧
    e ∉ s.cplPend ∧ s.Saved e ∧
      ((s.entry e).state = .phifCplReady ∧ (s.cpl e).tag = e ∨ (s.entry e).state = .hasPhifRsp) := by
  have hnot := (List.nodup_cons.mp hs.cplNodup).1
  have hmem : e ∈ (Hand.cpl e).cpls ++ s.cplPend := List.mem_cons_self
  cases hs.fits e with
  | idle _ _ hcpl _ => exact absurd hmem hcpl
  | queued _ _ hcpl _ _ => exact absurd hmem hcpl
  | waiting _ _ hcpl _ _ => exact absurd hmem hcpl
  | answered hp hcmd _ hstate hsaved => exact ⟨hp,hcmd,hnot,hsaved,hstate.imp id And.left⟩

/-- A call of a datapath function sends nothing by itself. -/
theorem datapath (hs : Flowing h s) (x : Nat) (b : Bool) : Flowing h (s.record (.datapath x b)) := by
  have hp (e : Nat) : phaseOf (s.log ++ [.datapath x b]) e = phaseOf s.log e := by
    simp [phaseOf_snoc,phaseAfter,HdcEvent.starts]
  constructor
  case fits =>
    intro e
    refine (hs.fits e).congr (hp e) Iff.rfl Iff.rfl rfl rfl ?_ id
    intro hused
    simpa [Hdc.record] using hused
  case cmdNodup => exact hs.cmdNodup
  case cplNodup => exact hs.cplNodup
  case allowed => exact hs.allowed.snoc trivial
  case order =>
    have horder := hs.order
    simp only [arrivals,requests] at horder
    simpa [arrivals,requests,Hdc.record,List.filterMap_append] using horder

/-- The request leaves. -/
theorem requested (hs : Flowing (.cmd e) s) {r : PhifCmdReq} (hr : r.tag = e) (n : Nat) :
    Flowing .free (({ s with sends := n }.record (.cmdReq e (some r))).setState e .waitPhifRsp) := by
  obtain ⟨hp,hcmd,hcpl,-,hsaved⟩ := hs.of_cmd
  constructor
  case fits =>
    intro x
    by_cases hx : x = e
    · subst hx
      refine .waiting (phaseOf_snoc_self rfl) hcmd hcpl ?_ ?_
      · rw [Hdc.setState_self]
      · rw [Hdc.Saved,Hdc.setState_self]
        exact hsaved
    · refine (hs.fits x).congr (phaseOf_snoc_of_ne rfl hx) ?_ Iff.rfl (Hdc.setState_of_ne _ _ hx) rfl ?_ ?_
      · exact (List.mem_cons.trans (or_iff_right hx)).symm
      · intro hused
        simpa [Hdc.setState,Hdc.setEntry,Hdc.record] using hused
      · intro hhand
        cases hhand
  case cmdNodup => exact (List.nodup_cons.mp hs.cmdNodup).2
  case cplNodup => exact hs.cplNodup
  case allowed => exact hs.allowed.snoc ⟨hp,r,rfl,hr⟩
  case order =>
    have horder := hs.order
    simp only [arrivals,requests,Hand.cmds] at horder
    simpa [arrivals,requests,Hand.cmds,Hdc.setState,Hdc.setEntry,Hdc.record,List.filterMap_append]
      using horder

/-- The port is busy and the command goes back to the front. -/
theorem requeued (hs : Flowing (.cmd e) s) (n : Nat) :
    Flowing .free ({ s with sends := n, cmdPend := e :: s.cmdPend }.setState e .queued) := by
  obtain ⟨hp,hcmd,hcpl,hstate,hsaved⟩ := hs.of_cmd
  constructor
  case fits =>
    intro x
    by_cases hx : x = e
    · subst hx
      refine .queued hp List.mem_cons_self hcpl ?_ ?_
      · rw [Hdc.setState_self]
      · rw [Hdc.Saved,Hdc.setState_self]
        exact hsaved
    · exact (hs.fits x).congr rfl Iff.rfl Iff.rfl (Hdc.setState_of_ne _ _ hx) rfl id nofun
  case cmdNodup => exact hs.cmdNodup
  case cplNodup => exact hs.cplNodup
  case allowed => exact hs.allowed
  case order => exact hs.order

/-- The completion is prepared. -/
theorem prepared (hs : Flowing (.cpl e) s) :
    Flowing (.cpl e) ((s.setCpl e (setupPhifCmdCpl (s.entry e))).setState e .phifCplReady) := by
  obtain ⟨hp,hcmd,-,hsaved,-⟩ := hs.of_cpl
  constructor
  case fits =>
    intro x
    by_cases hx : x = e
    · subst hx
      refine .answered hp hcmd List.mem_cons_self ?_ ?_
      · refine Or.inl ⟨by rw [Hdc.setState_self],?_⟩
        show (Function.update s.cpl x _ x).tag = x
        rw [Function.update_self]
        exact hsaved.1
      · rw [Hdc.Saved,Hdc.setState_self]
        exact hsaved
    · exact (hs.fits x).congr rfl Iff.rfl Iff.rfl (Hdc.setState_of_ne _ _ hx)
        (Function.update_of_ne hx ..) id id
  case cmdNodup => exact hs.cmdNodup
  case cplNodup => exact hs.cplNodup
  case allowed => exact hs.allowed
  case order => exact hs.order

/-- The completion leaves. -/
theorem completed (hs : Flowing (.cpl e) s) (hstate : (s.entry e).state = .phifCplReady) (n : Nat) :
    Flowing .free (({ s with sends := n }.record (.cmdCpl e (s.cpl e))).setState e .complete) := by
  obtain ⟨hp,hcmd,hcpl,-,hready⟩ := hs.of_cpl
  have htag : (s.cpl e).tag = e := by
    rcases hready with ⟨-,htag⟩ | hrsp
    · exact htag
    · rw [hstate] at hrsp
      cases hrsp
  constructor
  case fits =>
    intro x
    by_cases hx : x = e
    · subst hx
      refine .idle (phaseOf_snoc_self rfl) hcmd hcpl ?_
      intro _
      rw [Hdc.setState_self]
    · refine (hs.fits x).congr (phaseOf_snoc_of_ne rfl hx) Iff.rfl ?_ (Hdc.setState_of_ne _ _ hx) rfl ?_ ?_
      · exact (List.mem_cons.trans (or_iff_right hx)).symm
      · intro hused
        simpa [Hdc.setState,Hdc.setEntry,Hdc.record] using hused
      · intro hhand
        cases hhand
        exact absurd rfl hx
  case cmdNodup => exact hs.cmdNodup
  case cplNodup => exact (List.nodup_cons.mp hs.cplNodup).2
  case allowed => exact hs.allowed.snoc ⟨hp,htag⟩
  case order =>
    have horder := hs.order
    simp only [arrivals,requests,Hand.cmds] at horder
    simpa [arrivals,requests,Hand.cmds,Hdc.setState,Hdc.setEntry,Hdc.record,List.filterMap_append]
      using horder

/-- The port is busy and the completion waits at the front of its queue. -/
theorem postponed (hs : Flowing (.cpl e) s) (hstate : (s.entry e).state = .phifCplReady) (n : Nat) :
    Flowing .free ({ s with sends := n, cplPend := e :: s.cplPend }.setState e .phifCplReady) := by
  obtain ⟨hp,hcmd,-,hsaved,hready⟩ := hs.of_cpl
  constructor
  case fits =>
    intro x
    by_cases hx : x = e
    · subst hx
      refine .answered hp hcmd List.mem_cons_self (Or.inl ⟨by rw [Hdc.setState_self],?_⟩) ?_
      · rcases hready with ⟨-,htag⟩ | hrsp
        · exact htag
        · rw [hstate] at hrsp
          cases hrsp
      · rw [Hdc.Saved,Hdc.setState_self]
        exact hsaved
    · refine (hs.fits x).congr rfl Iff.rfl Iff.rfl (Hdc.setState_of_ne _ _ hx) rfl id ?_
      intro hhand
      cases hhand
      exact absurd rfl hx
  case cmdNodup => exact hs.cmdNodup
  case cplNodup => exact hs.cplNodup
  case allowed => exact hs.allowed
  case order => exact hs.order

/-- One pass of the state machine for the entry in hand. -/
theorem pass (hs : Flowing h s) (hhand : h = .cmd e ∨ h = .cpl e) :
    Flowing .free (flowPass env s e).1 := by
  rcases hhand with rfl | rfl
  · obtain ⟨-,-,-,hstate,hsaved⟩ := hs.of_cmd
    rw [flowPass_queued hstate]
    split
    · exact hs.requested hsaved.1 _
    · exact hs.requeued _
  · have hready (t : Hdc) (ht : Flowing (.cpl e) t) (hstate : (t.entry e).state = .phifCplReady) :
        Flowing .free (flowPass env t e).1 := by
      rw [flowPass_cplReady hstate]
      split
      · rw [ht.of_cpl.2.2.2.1.1]
        exact ht.completed hstate _
      · exact ht.postponed hstate _
    obtain ⟨-,-,-,hsaved,⟨hstate,-⟩ | hstate⟩ := hs.of_cpl
    · exact hready s hs hstate
    · rw [flowPass_hasPhifRsp hstate,hsaved.1]
      exact hready _ hs.prepared (by rw [Hdc.setState_self])

/-- The next pending entry comes to hand. -/
theorem next {s' : Hdc} (hs : Flowing .free s) (hnext : getNextHostCmdEntry s = (some e,s')) :
    ∃ h, Flowing h s' ∧ (h = .cmd e ∨ h = .cpl e) := by
  unfold getNextHostCmdEntry at hnext
  split at hnext
  case h_1 x q hq =>
    cases hnext
    refine ⟨.cpl e,?_,Or.inr rfl⟩
    constructor
    case fits =>
      intro x
      refine (hs.fits x).congr rfl Iff.rfl ?_ rfl rfl id nofun
      show x ∈ e :: q ↔ x ∈ s.cplPend
      rw [hq]
    case cmdNodup => exact hs.cmdNodup
    case cplNodup =>
      show (e :: q).Nodup
      rw [← hq]
      exact hs.cplNodup
    case allowed => exact hs.allowed
    case order => exact hs.order
  case h_2 hnil =>
    split at hnext
    case h_1 x q hq =>
      cases hnext
      refine ⟨.cmd e,?_,Or.inl rfl⟩
      constructor
      case fits =>
        intro x
        refine (hs.fits x).congr rfl ?_ Iff.rfl rfl rfl id nofun
        show x ∈ e :: q ↔ x ∈ s.cmdPend
        rw [hq]
      case cmdNodup =>
        show (e :: q).Nodup
        rw [← hq]
        exact hs.cmdNodup
      case cplNodup => exact hs.cplNodup
      case allowed => exact hs.allowed
      case order =>
        show arrivals s.log = requests s.log ++ e :: q
        rw [← hq]
        exact hs.order
    case h_2 => cases hnext

/-- A whole call of a datapath function, with the calls it makes for the entries behind. -/
theorem datapathHdc {n : Nat} {s' : Hdc} (hs : Flowing h s) (hhand : h = .cmd e ∨ h = .cpl e)
    (hrun : Fw.datapathHdc env n s e = some s') : Flowing .free s' := by
  let I : Option Nat → Hdc → Prop
    | none, t => Flowing .free t
    | some x, t => ∃ h, Flowing h t ∧ (h = .cmd x ∨ h = .cpl x)
  apply datapathHdc_invariant I ?_ ?_ (s := s) ⟨h,hs,hhand⟩ hrun
  · intro t x ht
    obtain ⟨h',ht,hhand'⟩ := ht
    exact (ht.datapath x _).pass hhand'
  · intro t x u ht hnext
    exact ht.next hnext

/-- A new command is saved and put behind the pending ones. -/
theorem arrived (hs : Flowing .free s) {cmd : HdcNvmeCmd} (hrw : cmd.sqe.IsRw)
    (hidle : phaseOf s.log cmd.tag = .idle) {t : Hdc}
    (ht : t = { saveInHostCmdEntry (s.record (.nvmeCmd cmd.tag)) cmd.tag cmd with
      cmdPend := s.cmdPend ++ [cmd.tag] }.setState cmd.tag .queued) : Flowing .free t := by
  obtain ⟨hcmd,hcpl⟩ : cmd.tag ∉ s.cmdPend ∧ cmd.tag ∉ s.cplPend := by
    cases hs.fits cmd.tag with
    | idle _ hcmd hcpl _ => exact ⟨hcmd,hcpl⟩
    | queued hp _ _ _ _ => cases hidle.symm.trans hp
    | waiting hp _ _ _ _ => cases hidle.symm.trans hp
    | answered hp _ _ _ _ => cases hidle.symm.trans hp
  obtain ⟨hstate,htag,hsqe⟩ : (t.entry cmd.tag).state = .queued ∧ (t.entry cmd.tag).cmdTag = cmd.tag ∧
      (t.entry cmd.tag).sqe = cmd.sqe := by
    simp [ht,saveInHostCmdEntry]
  constructor
  case fits =>
    intro x
    by_cases hx : x = cmd.tag
    · subst hx
      refine .queued ?_ ?_ ?_ hstate ⟨htag,by rw [hsqe]; exact hrw⟩
      · rw [ht]
        exact phaseOf_snoc_self rfl
      · rw [ht]
        show cmd.tag ∈ s.cmdPend ++ [cmd.tag]
        exact List.mem_append_right _ (List.mem_singleton_self _)
      · rw [ht]
        exact hcpl
    · subst ht
      refine (hs.fits x).congr (phaseOf_snoc_of_ne rfl hx) ?_ Iff.rfl ?_ rfl ?_ id
      · show x ∈ s.cmdPend ++ [cmd.tag] ↔ x ∈ s.cmdPend
        simp [hx]
      · rw [Hdc.setState_of_ne _ _ hx]
        exact Hdc.setEntry_of_ne _ _ hx
      · intro hused
        simpa [Hdc.setState,Hdc.setEntry,Hdc.record,saveInHostCmdEntry,hx] using hused
  case cmdNodup =>
    rw [ht]
    show (s.cmdPend ++ [cmd.tag]).Nodup
    rw [List.nodup_append_comm]
    exact List.nodup_cons.mpr ⟨hcmd,hs.cmdNodup⟩
  case cplNodup =>
    rw [ht]
    exact hs.cplNodup
  case allowed =>
    rw [ht]
    exact hs.allowed.snoc hidle
  case order =>
    have horder := hs.order
    simp only [arrivals,requests,Hand.cmds,List.nil_append] at horder
    simp [ht,arrivals,requests,Hand.cmds,Hdc.setState,Hdc.setEntry,Hdc.record,saveInHostCmdEntry,
      List.filterMap_append,horder]

/-- A response makes the completion of its entry due. -/
theorem responded (hs : Flowing .free s) (hwait : phaseOf s.log e = .waiting) (sct sc : Nat) :
    Flowing (.cpl e) (((s.record (.cmdRsp e)).setStatus e sct sc).setState e .hasPhifRsp) ∧
      (s.entry e).sqe.IsRw := by
  obtain ⟨hcmd,hcpl,hsaved⟩ : e ∉ s.cmdPend ∧ e ∉ s.cplPend ∧ s.Saved e := by
    cases hs.fits e with
    | idle hp _ _ _ => cases hwait.symm.trans hp
    | queued hp _ _ _ _ => cases hwait.symm.trans hp
    | waiting _ hcmd hcpl _ hsaved => exact ⟨hcmd,hcpl,hsaved⟩
    | answered hp _ _ _ _ => cases hwait.symm.trans hp
  refine ⟨?_,hsaved.2⟩
  constructor
  case fits =>
    intro x
    by_cases hx : x = e
    · subst hx
      refine .answered (phaseOf_snoc_self rfl) hcmd List.mem_cons_self (Or.inr ⟨?_,rfl⟩) ?_
      · rw [Hdc.setState_self]
      · rw [Hdc.Saved,Hdc.setState_self]
        simpa [Hdc.Saved,Hdc.setStatus,Hdc.record] using hsaved
    · refine (hs.fits x).congr (phaseOf_snoc_of_ne rfl hx) Iff.rfl ?_ ?_ rfl ?_ ?_
      · exact List.mem_cons.trans (or_iff_right hx)
      · rw [Hdc.setState_of_ne _ _ hx]
        exact Hdc.setEntry_of_ne _ _ hx
      · intro hused
        simpa [Hdc.setState,Hdc.setStatus,Hdc.setEntry,Hdc.record] using hused
      · intro hhand
        cases hhand
  case cmdNodup => exact hs.cmdNodup
  case cplNodup => exact List.nodup_cons.mpr ⟨hcpl,hs.cplNodup⟩
  case allowed => exact hs.allowed.snoc hwait
  case order =>
    have horder := hs.order
    simp only [arrivals,requests,Hand.cmds,List.nil_append] at horder
    simp [arrivals,requests,Hand.cmds,Hdc.setState,Hdc.setStatus,Hdc.setEntry,Hdc.record,
      List.filterMap_append,horder]

end Flowing

/-- The traffic: read and write commands on I/O queues that pass the checks, whose tag is free, and
responses to requests that are not yet answered. -/
def rwTraffic (env : HdcEnv) (s : Hdc) : HdcLabel → Prop
  | .nvmeCmd cmd _ => cmd.sqid ≠ 0 ∧ cmd.sqe.IsRw ∧ env.Accepts cmd.sqe ∧ phaseOf s.log cmd.tag = .idle
  | .cmdRsp tag _ _ => phaseOf s.log tag = .waiting

section Events

variable {env : HdcEnv} {s s' : Hdc} {l : HdcLabel}

/-- Each message is handled to its end, and leaves queues, state bytes and log in agreement. -/
theorem Flowing.step (hs : Flowing .free s) (hl : rwTraffic env s l) :
    ∃ s', s.step env l = some s' ∧ Flowing .free s' := by
  cases l with
  | nvmeCmd cmd reply =>
    obtain ⟨hsqid,hrw,hacc,hidle⟩ := hl
    let t := saveInHostCmdEntry (s.record (.nvmeCmd cmd.tag)) cmd.tag cmd
    have hsqe : (t.entry cmd.tag).sqe = cmd.sqe := by
      show ((Hdc.setEntry _ _ _).entry cmd.tag).sqe = cmd.sqe
      rw [Hdc.setEntry_self]
    obtain ⟨x,u,hnext,hio⟩ := handleNvmeIoCommand_rw (s := t) (by rw [hsqe]; exact hacc)
      (by rw [hsqe]; exact hrw)
    obtain ⟨h,hu,hhand⟩ := (hs.arrived hrw hidle rfl).next hnext
    obtain ⟨s',hs'⟩ := datapathHdc_returns (Nat.lt_succ_self u.pendingCnt)
    refine ⟨s',?_,hu.datapathHdc hhand hs'⟩
    show (if cmd.sqid = 0 then _ else handleNvmeIoCommand env t cmd.tag).map _ = some s'
    rw [if_neg hsqid,hio,hs']
    rfl
  | cmdRsp tag sct sc =>
    obtain ⟨hcpl,hrw⟩ := hs.responded hl sct sc
    obtain ⟨s',hs'⟩ := datapathHdc_returns (Nat.lt_succ_self
      (((s.record (.cmdRsp tag)).setStatus tag sct sc).setState tag .hasPhifRsp).pendingCnt)
    refine ⟨s',?_,hcpl.datapathHdc (Or.inr rfl) hs'⟩
    have hop : (((s.record (.cmdRsp tag)).setStatus tag sct sc).entry tag).sqe = (s.entry tag).sqe := by
      simp [Hdc.setStatus,Hdc.record]
    simp only [Hdc.step,phifCmdResponseToHdc,hop]
    rcases hrw with hr | hw
    · rw [if_neg (by rw [hr]; decide),if_pos hr]
      exact hs'
    · rw [if_pos hw]
      exact hs'

end Events

/-- One of the four places of an accepted command; the state bytes exclude one another. -/
def Hdc.OnePlace (s : Hdc) (e : Nat) : Prop :=
  (s.entry e).state = .queued ∧ e ∈ s.cmdPend ∧ e ∉ s.cplPend ∨
    (s.entry e).state = .waitPhifRsp ∧ e ∉ s.cmdPend ∧ e ∉ s.cplPend ∨
    (s.entry e).state = .phifCplReady ∧ e ∉ s.cmdPend ∧ e ∈ s.cplPend ∨
    (s.entry e).state = .complete ∧ e ∉ s.cmdPend ∧ e ∉ s.cplPend

theorem Fits.onePlace {s : Hdc} {e : Nat} (h : Fits .free s e) (hused : .nvmeCmd e ∈ s.log) :
    s.OnePlace e := by
  cases h with
  | idle _ hcmd hcpl hstate => exact Or.inr (Or.inr (Or.inr ⟨hstate hused,hcmd,hcpl⟩))
  | queued _ hcmd hcpl hstate _ => exact Or.inl ⟨hstate,hcmd,hcpl⟩
  | waiting _ hcmd hcpl hstate _ => exact Or.inr (Or.inl ⟨hstate,hcmd,hcpl⟩)
  | answered _ hcmd hcpl hstate _ =>
    rcases hstate with ⟨hstate,-⟩ | ⟨-,hhand⟩
    · exact Or.inr (Or.inr (Or.inl ⟨hstate,hcmd,hcpl⟩))
    · cases hhand

section Example

/-- The port is busy at the first attempt to send. -/
def busyAtFirst : HdcEnv := ⟨1000,15,fun _ => ⟨0,0,fun _ => ⟨16,12,0⟩⟩,fun n => n != 0⟩

/-- A command on I/O queue 1 for LBA 8. -/
def ioCommand (tag opcode : Nat) : HdcLabel :=
  .nvmeCmd ⟨tag,1,0,0,0,⟨opcode,0,0,8,0,0,0⟩⟩ ⟨.complete,0,0,0⟩

def stepOr (env : HdcEnv) (s : Hdc) (l : HdcLabel) : Hdc := (s.step env l).getD s

theorem step_stepOr {env : HdcEnv} {s : Hdc} {l : HdcLabel} (h : (s.step env l).isSome = true) :
    s.step env l = some (stepOr env s l) := by
  unfold stepOr
  cases hs : s.step env l with
  | none =>
    rw [hs] at h
    cases h
  | some t => rfl

end Example

end Sdssd.Fw
