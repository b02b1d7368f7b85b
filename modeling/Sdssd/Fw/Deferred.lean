import Sdssd.Framework.Steps
import Sdssd.Fw.CommandFlow

/-!
# Completions that wait for the port

`hdc_host_cmd_task` completes some commands itself. When the port is busy it leaves the entry in the queue
of completions and does not write the state byte, by which the datapath decides later.
-/

namespace Sdssd.Fw

open Framework

/-- The completions sent for an entry. -/
def completions (e : Nat) (log : List HdcEvent) : List PhifCmdCpl :=
  log.filterMap fun
    | .cmdCpl x c => if x = e then some c else none
    | _ => none

theorem completions_append (e : Nat) (log new : List HdcEvent) :
    completions e (log ++ new) = completions e log ++ completions e new :=
  List.filterMap_append

theorem completions_eq_nil {e : Nat} {log : List HdcEvent} (h : ∀ ev ∈ log, ev.about ≠ e) :
    completions e log = [] := by
  apply List.filterMap_eq_nil_iff.mpr
  intro ev hev
  cases ev with
  | cmdCpl x c => exact if_neg (h _ hev)
  | _ => rfl

/-- Entries hold their own tag once a command has been saved in them. -/
def Hdc.Tagged (s : Hdc) : Prop :=
  ∀ x, (s.entry x).cmdTag = x ∨ (s.entry x).state = .initial ∧ (s.entry x).sqe.opcode = nvmeIoFlush

/-- From `s` to `s'` only entry `x`, its completion, the queues and the log have changed, the log by
events about `x`. -/
structure Local (x : Nat) (s s' : Hdc) : Prop where
  entry : ∀ y, y ≠ x → s'.entry y = s.entry y
  cpl : ∀ y, y ≠ x → s'.cpl y = s.cpl y
  log : ∃ new, s'.log = s.log ++ new ∧ ∀ ev ∈ new, ev.about = x

section Local

variable {env : HdcEnv} {s s' t : Hdc} {x : Nat}

theorem Local.of_eq (x : Nat) (hentry : s'.entry = s.entry) (hcpl : s'.cpl = s.cpl) (hlog : s'.log = s.log) :
    Local x s s' :=
  ⟨fun y _ => congrFun hentry y,fun y _ => congrFun hcpl y,[],by rw [hlog,List.append_nil],nofun⟩

theorem Local.trans (h : Local x s t) (h' : Local x t s') : Local x s s' := by
  constructor
  case entry =>
    intro y hy
    exact (h'.entry y hy).trans (h.entry y hy)
  case cpl =>
    intro y hy
    exact (h'.cpl y hy).trans (h.cpl y hy)
  case log =>
    obtain ⟨new,hnew,habout⟩ := h.log
    obtain ⟨new',hnew',habout'⟩ := h'.log
    refine ⟨new ++ new',by rw [hnew',hnew,List.append_assoc],?_⟩
    intro ev hev
    exact (List.mem_append.mp hev).elim (habout ev) (habout' ev)

theorem Local.setEntry (s : Hdc) (x : Nat) (y : HostNvmeCmdEntry) : Local x s (s.setEntry x y) :=
  ⟨fun _ hy => Hdc.setEntry_of_ne s y hy,fun _ _ => rfl,[],(List.append_nil _).symm,nofun⟩

theorem Local.setCpl (s : Hdc) (x : Nat) (c : PhifCmdCpl) : Local x s (s.setCpl x c) :=
  ⟨fun _ _ => rfl,fun _ hy => Function.update_of_ne hy ..,[],(List.append_nil _).symm,nofun⟩

theorem Local.record (s : Hdc) {ev : HdcEvent} (hev : ev.about = x) : Local x s (s.record ev) := by
  refine ⟨fun _ _ => rfl,fun _ _ => rfl,[ev],rfl,?_⟩
  intro ev' hev'
  rw [List.mem_singleton.mp hev']
  exact hev

theorem sendMsg_local (env : HdcEnv) (s : Hdc) {msg : HdcEvent} (hmsg : msg.about = x) :
    Local x s (sendMsg env s msg).2 := by
  unfold sendMsg
  simp only
  split
  case isTrue => exact Local.of_eq x rfl rfl rfl
  case isFalse =>
    have hcount : Local x s { s with sends := s.sends + 1 } := Local.of_eq x rfl rfl rfl
    exact hcount.trans (Local.record _ hmsg)

theorem completeDirectly_local (env : HdcEnv) (s : Hdc) (x : Nat) :
    Local x s (completeDirectly env s x) := by
  have hsend := (Local.setCpl s x (setupPhifCmdCpl (s.entry x))).trans
    (sendMsg_local env _ (rfl : (HdcEvent.cmdCpl x (setupPhifCmdCpl (s.entry x))).about = x))
  unfold completeDirectly sendPhifCmdCpl
  simp only
  split
  case h_1 t ht =>
    rw [ht] at hsend
    exact hsend.trans (Local.of_eq x rfl rfl rfl)
  case h_2 t ht =>
    rw [ht] at hsend
    exact hsend

theorem completeDirectly_entry (env : HdcEnv) (s : Hdc) (x : Nat) :
    (completeDirectly env s x).entry = s.entry := by
  cases hport : env.portIsAvailable s.sends <;>
    simp [completeDirectly,sendPhifCmdCpl,sendMsg,Hdc.setCpl,Hdc.record,hport]

/-- A pass is about its entry only, since completions are prepared at the tag the entry holds. -/
theorem flowPass_local (hs : s.Tagged) (x : Nat) : Local x s (flowPass env s x).1 := by
  constructor
  case entry =>
    intro y hy
    obtain ⟨st,hst⟩ := flowPass_entry env s x
    rw [hst]
    exact Hdc.setState_of_ne s st hy
  case cpl =>
    intro y hy
    rcases hs x with htag | ⟨hstate,-⟩
    · exact flowPass_cpl (htag.symm ▸ hy)
    · rw [flowPass_initial hstate]
  case log => exact flowPass_log env s x

end Local

namespace Hdc.Tagged

variable {env : HdcEnv} {s s' : Hdc} {x : Nat}

theorem init : Hdc.init.Tagged := fun _ => Or.inr ⟨rfl,rfl⟩

theorem of_entry (hs : s.Tagged) (hentry : s'.entry = s.entry) : s'.Tagged := by
  rw [Tagged,hentry]
  exact hs

theorem setEntry (hs : s.Tagged) {y : HostNvmeCmdEntry}
    (hy : y.cmdTag = x ∨ y.state = .initial ∧ y.sqe.opcode = nvmeIoFlush) : (s.setEntry x y).Tagged := by
  intro z
  by_cases hz : z = x
  · subst hz
    rw [setEntry_self]
    exact hy
  · rw [setEntry_of_ne s y hz]
    exact hs z

theorem setStatus (hs : s.Tagged) (x sct sc : Nat) : (s.setStatus x sct sc).Tagged := hs.setEntry (hs x)

theorem setState (hs : s.Tagged) (hx : (s.entry x).cmdTag = x) (st : FlowState) :
    (s.setState x st).Tagged :=
  hs.setEntry (Or.inl hx)

theorem record (hs : s.Tagged) (ev : HdcEvent) : (s.record ev).Tagged := hs

theorem pass (hs : s.Tagged) (x : Nat) : (flowPass env s x).1.Tagged := by
  rcases hs x with htag | ⟨hstate,-⟩
  · obtain ⟨st,hst⟩ := flowPass_entry env s x
    exact (hs.setState htag st).of_entry hst
  · rw [flowPass_initial hstate]
    exact hs

end Hdc.Tagged

/-- The tag that a message is about. -/
def HdcLabel.tag : HdcLabel → Nat
  | .nvmeCmd cmd _ => cmd.tag
  | .cmdRsp tag _ _ => tag

/-- What a property needs to be kept by messages about the tags in `ok`. A message changes its own entry,
may store a status in the entry that comes first, and lets the datapath run on entries from the queues. -/
structure KeptFor (env : HdcEnv) (ok : Nat → Prop) (Q : Hdc → Prop) : Prop where
  onLocal : ∀ x s s', ok x → Q s → Local x s s' → Q s'
  onStatus : ∀ s x sct sc, Q s → Q (s.setStatus x sct sc)
  onPass : ∀ s x, s.Tagged → Q s →
    Q (flowPass env (s.record (.datapath x (env.portIsAvailable s.sends))) x).1

/-- `hdc_host_cmd_task` up to the result of the handler. -/
def dispatchHostCmd (env : HdcEnv) (s : Hdc) (cmd : HdcNvmeCmd) (reply : AdminReply) :
    Option (NvmeRequest × Hdc) :=
  let s := saveInHostCmdEntry (s.record (.nvmeCmd cmd.tag)) cmd.tag cmd
  if cmd.sqid = 0 then some (handleNvmeAdminCommand s cmd.tag reply)
  else handleNvmeIoCommand env s cmd.tag

theorem step_nvmeCmd (env : HdcEnv) (s : Hdc) (cmd : HdcNvmeCmd) (reply : AdminReply) :
    s.step env (.nvmeCmd cmd reply) = (dispatchHostCmd env s cmd reply).map fun r =>
      if r.1 = .processing then r.2 else completeDirectly env r.2 cmd.tag :=
  rfl

theorem dispatchHostCmd_cases {env : HdcEnv} {s t : Hdc} {cmd : HdcNvmeCmd} {reply : AdminReply}
    {res : NvmeRequest} (h : dispatchHostCmd env s cmd reply = some (res,t)) :
    ∃ u, u = saveInHostCmdEntry (s.record (.nvmeCmd cmd.tag)) cmd.tag cmd ∧
      (u.entry cmd.tag).sqe = cmd.sqe ∧ ((res,t) = handleNvmeAdminCommand u cmd.tag reply ∨
        cmd.sqid ≠ 0 ∧ IoEffect env u cmd.tag res t) := by
  refine ⟨_,rfl,by rw [saveInHostCmdEntry,Hdc.setEntry_self],?_⟩
  unfold dispatchHostCmd at h
  simp only at h
  split at h
  case isTrue => exact Or.inl (Option.some.inj h).symm
  case isFalse hsqid =>
    obtain ⟨res',t',hio,heffect⟩ := handleNvmeIoCommand_effect env
      (saveInHostCmdEntry (s.record (.nvmeCmd cmd.tag)) cmd.tag cmd) cmd.tag
    rw [hio] at h
    obtain ⟨rfl,rfl⟩ := Prod.mk.inj (Option.some.inj h)
    exact Or.inr ⟨hsqid,heffect⟩

namespace KeptFor

variable {env : HdcEnv} {ok : Nat → Prop} {Q : Hdc → Prop} {s s' : Hdc} {e : Nat}

theorem next {t : Hdc} {x : Nat} (hQ : KeptFor env ok Q) (he : ok e) (hs : s.Tagged ∧ Q s)
    (hnext : getNextHostCmdEntry s = (some x,t)) : t.Tagged ∧ Q t := by
  obtain ⟨-,hentry,hcpl,hlog⟩ := getNextHostCmdEntry_pending hnext
  exact ⟨hs.1.of_entry hentry,hQ.onLocal e s t he hs.2 (Local.of_eq e hentry hcpl hlog)⟩

theorem datapathHdc {n x : Nat} (hQ : KeptFor env ok Q) (he : ok e) (hs : s.Tagged ∧ Q s)
    (hrun : Fw.datapathHdc env n s x = some s') : s'.Tagged ∧ Q s' := by
  apply datapathHdc_invariant (fun _ t => t.Tagged ∧ Q t) ?_ ?_ hs hrun
  · intro t y ht
    exact ⟨(ht.1.record _).pass y,hQ.onPass t y ht.1 ht.2⟩
  · intro t y u ht hnext
    exact hQ.next he ht hnext

theorem setEntry {y : HostNvmeCmdEntry} (hQ : KeptFor env ok Q) (he : ok e) (hs : s.Tagged ∧ Q s)
    (hy : y.cmdTag = e) : (s.setEntry e y).Tagged ∧ Q (s.setEntry e y) :=
  ⟨hs.1.setEntry (Or.inl hy),hQ.onLocal e s _ he hs.2 (Local.setEntry s e y)⟩

theorem setState (hQ : KeptFor env ok Q) (he : ok e) (hs : s.Tagged ∧ Q s) (htag : (s.entry e).cmdTag = e)
    (st : FlowState) : (s.setState e st).Tagged ∧ Q (s.setState e st) :=
  hQ.setEntry he hs htag

theorem io {res : NvmeRequest} (hQ : KeptFor env ok Q) (he : ok e) (hs : s.Tagged ∧ Q s)
    (htag : (s.entry e).cmdTag = e) (heffect : IoEffect env s e res s') : s'.Tagged ∧ Q s' := by
  have hqueue : ({ s with cmdPend := s.cmdPend ++ [e] } : Hdc).Tagged ∧
      Q { s with cmdPend := s.cmdPend ++ [e] } :=
    ⟨hs.1.of_entry rfl,hQ.onLocal e s _ he hs.2 (Local.of_eq e rfl rfl rfl)⟩
  cases heffect with
  | rejected sc _ => exact ⟨hs.1.setStatus e _ sc,hQ.onStatus s e _ sc hs.2⟩
  | flow x t _ _ _ hnext hrun =>
    exact hQ.datapathHdc he (hQ.next he (hQ.setState he hqueue htag _) hnext) hrun
  | ignored x t _ _ hnext => exact hQ.next he hqueue hnext
  | unsupported x t _ _ hnext =>
    obtain ⟨htagged,ht⟩ := hQ.next he hqueue hnext
    exact ⟨htagged.setStatus x _ _,hQ.onStatus t x _ _ ht⟩

theorem admin (hQ : KeptFor env ok Q) (he : ok e) (hs : s.Tagged ∧ Q s) (htag : (s.entry e).cmdTag = e)
    (reply : AdminReply) : (handleNvmeAdminCommand s e reply).2.Tagged ∧
      Q (handleNvmeAdminCommand s e reply).2 := by
  have hset (sct sc : Nat) : (s.setStatus e sct sc).Tagged ∧ Q (s.setStatus e sct sc) :=
    hQ.setEntry he hs htag
  unfold handleNvmeAdminCommand
  split
  case isTrue => exact hset _ _
  case isFalse =>
    apply hQ.setEntry he (hset _ _)
    rw [Hdc.setStatus,Hdc.setEntry_self]
    exact htag

theorem dispatch {t : Hdc} {cmd : HdcNvmeCmd} {reply : AdminReply} {res : NvmeRequest}
    (hQ : KeptFor env ok Q) (hcmd : ok cmd.tag) (hs : s.Tagged ∧ Q s)
    (h : dispatchHostCmd env s cmd reply = some (res,t)) : t.Tagged ∧ Q t := by
  obtain ⟨u,rfl,-,hu⟩ := dispatchHostCmd_cases h
  have hrec : (s.record (.nvmeCmd cmd.tag)).Tagged ∧ Q (s.record (.nvmeCmd cmd.tag)) :=
    ⟨hs.1.record _,hQ.onLocal _ s _ hcmd hs.2 (Local.record s rfl)⟩
  have hsave := hQ.setEntry (y := { (s.record (.nvmeCmd cmd.tag)).entry cmd.tag with
    cmdTag := cmd.tag, sqid := cmd.sqid, vfa := cmd.vfa, port := cmd.port, vf := cmd.vf, sqe := cmd.sqe })
    hcmd hrec rfl
  have htag : ((saveInHostCmdEntry (s.record (.nvmeCmd cmd.tag)) cmd.tag cmd).entry cmd.tag).cmdTag =
      cmd.tag := by
    rw [saveInHostCmdEntry,Hdc.setEntry_self]
  rcases hu with hadmin | ⟨-,hio⟩
  · have ht := hQ.admin hcmd hsave htag reply
    rw [saveInHostCmdEntry] at hadmin
    rw [← hadmin] at ht
    exact ht
  · exact hQ.io hcmd hsave htag hio

/-- Each message about one of the tags keeps the property. -/
theorem step {l : HdcLabel} (hQ : KeptFor env ok Q) (hl : ok l.tag) (hs : s.Tagged ∧ Q s)
    (hstep : s.step env l = some s') : s'.Tagged ∧ Q s' := by
  cases l with
  | nvmeCmd cmd reply =>
    rw [step_nvmeCmd] at hstep
    obtain ⟨⟨res,t⟩,hdispatch,rfl⟩ := Option.map_eq_some_iff.mp hstep
    have ht := hQ.dispatch hl hs hdispatch
    simp only
    split
    case isTrue => exact ht
    case isFalse =>
      exact ⟨ht.1.of_entry (completeDirectly_entry env t cmd.tag),
        hQ.onLocal _ t _ hl ht.2 (completeDirectly_local env t cmd.tag)⟩
  | cmdRsp tag sct sc =>
    have hrec : (s.record (.cmdRsp tag)).Tagged ∧ Q (s.record (.cmdRsp tag)) :=
      ⟨hs.1.record _,hQ.onLocal _ s _ hl hs.2 (Local.record s rfl)⟩
    have hset : ((s.record (.cmdRsp tag)).setStatus tag sct sc).Tagged ∧
        Q ((s.record (.cmdRsp tag)).setStatus tag sct sc) :=
      ⟨hrec.1.setStatus tag sct sc,hQ.onStatus _ tag sct sc hrec.2⟩
    have htag (hop : (((s.record (.cmdRsp tag)).setStatus tag sct sc).entry tag).sqe.opcode ≠ nvmeIoFlush) :
        (((s.record (.cmdRsp tag)).setStatus tag sct sc).entry tag).cmdTag = tag :=
      (hset.1 tag).resolve_right fun h => hop h.2
    simp only [Hdc.step,phifCmdResponseToHdc] at hstep
    split at hstep
    case isTrue hw =>
      have hop := htag (by rw [hw]; decide)
      exact hQ.datapathHdc hl (hQ.setState hl hset hop _) hstep
    case isFalse =>
      split at hstep
      case isTrue hr =>
        have hop := htag (by rw [hr]; decide)
        exact hQ.datapathHdc hl (hQ.setState hl hset hop _) hstep
      case isFalse => exact Option.some.inj hstep ▸ hset

end KeptFor

/-- Entries keep their own tag over every message. -/
theorem Hdc.Tagged.step {env : HdcEnv} {s s' : Hdc} {l : HdcLabel} (hs : s.Tagged)
    (h : s.step env l = some s') : s'.Tagged := by
  have htrue : KeptFor env (fun _ => True) fun _ => True :=
    ⟨fun _ _ _ _ _ _ => trivial,fun _ _ _ _ _ => trivial,fun _ _ _ _ => trivial⟩
  exact (htrue.step trivial ⟨hs,trivial⟩ h).1

/-- Completion `c` of entry `e` since the log was `log₀`: it waits, and no datapath call for the entry has
found the port free; or the first such call has sent it. -/
inductive Stage (e : Nat) (log₀ : List HdcEvent) (c : PhifCmdCpl) (s : Hdc) : Prop
  | waiting (new : List HdcEvent) (hlog : s.log = log₀ ++ new) (hstate : (s.entry e).state = .phifCplReady)
      (hcpl : s.cpl e = c) (hnone : completions e new = []) (hcall : .datapath e true ∉ new)
  | sent (new : List HdcEvent) (hlog : s.log = log₀ ++ new) (hstate : (s.entry e).state = .complete)
      (hone : completions e new = [c]) (hcall : .datapath e true ∈ new)

namespace Stage

variable {env : HdcEnv} {e : Nat} {log₀ : List HdcEvent} {c : PhifCmdCpl} {s s' : Hdc}

/-- What happens to other entries. -/
theorem of_local {x : Nat} (hs : Stage e log₀ c s) (hx : x ≠ e) (h : Local x s s') : Stage e log₀ c s' := by
  obtain ⟨add,hadd,habout⟩ := h.log
  have hother : ∀ ev ∈ add, ev.about ≠ e := fun ev hev => habout ev hev ▸ hx
  have hentry := h.entry e hx.symm
  cases hs with
  | waiting new hlog hstate hcpl hnone hcall =>
    refine .waiting (new ++ add) (by rw [hadd,hlog,List.append_assoc]) (hentry ▸ hstate)
      ((h.cpl e hx.symm).trans hcpl) ?_ ?_
    · rw [completions_append,hnone,completions_eq_nil hother]
      rfl
    · intro hmem
      rcases List.mem_append.mp hmem with hold | hnew
      · exact hcall hold
      · exact hother _ hnew rfl
  | sent new hlog hstate hone hcall =>
    refine .sent (new ++ add) (by rw [hadd,hlog,List.append_assoc]) (hentry ▸ hstate) ?_
      (List.mem_append_left _ hcall)
    rw [completions_append,hone,completions_eq_nil hother]
    rfl

/-- A datapath call for the entry: it sends the completion if the port is free, and leaves it waiting if
not. -/
theorem pass (hs : Stage e log₀ c s) (htag : (s.entry e).cmdTag = e) :
    Stage e log₀ c (flowPass env (s.record (.datapath e (env.portIsAvailable s.sends))) e).1 := by
  cases hs with
  | waiting new hlog hstate hcpl hnone hcall =>
    rw [flowPass_cplReady (s := s.record _) hstate]
    cases hport : env.portIsAvailable s.sends with
    | true =>
      rw [if_pos (show env.portIsAvailable (s.record _).sends = true from hport)]
      refine .sent (new ++ [.datapath e true,.cmdCpl e c]) ?_ ?_ ?_ (by simp)
      · show s.log ++ [.datapath e true] ++ [.cmdCpl e (s.cpl (s.entry e).cmdTag)] = _
        rw [htag,hcpl,hlog]
        simp
      · rw [Hdc.setState_self]
      · rw [completions_append,hnone]
        simp [completions]
    | false =>
      rw [if_neg (show ¬ env.portIsAvailable (s.record _).sends = true by simp [Hdc.record,hport])]
      refine .waiting (new ++ [.datapath e false]) ?_ ?_ hcpl ?_ (by simp [hcall])
      · show s.log ++ [.datapath e false] = _
        rw [hlog,List.append_assoc]
      · rw [Hdc.setState_self]
      · rw [completions_append,hnone]
        rfl
  | sent new hlog hstate hone hcall =>
    rw [flowPass_complete (s := s.record _) hstate]
    refine .sent (new ++ [.datapath e (env.portIsAvailable s.sends)]) ?_ hstate ?_
      (List.mem_append_left _ hcall)
    · show s.log ++ _ = _
      rw [hlog,List.append_assoc]
    · rw [completions_append,hone]
      rfl

theorem keptFor (env : HdcEnv) (e : Nat) (log₀ : List HdcEvent) (c : PhifCmdCpl) :
    KeptFor env (fun x => x ≠ e) (Stage e log₀ c) := by
  constructor
  case onLocal =>
    intro x s s' hx hs h
    exact hs.of_local hx h
  case onStatus =>
    intro s x sct sc hs
    have hstate := s.setStatus_state x e sct sc
    cases hs with
    | waiting new hlog h hcpl hnone hcall => exact .waiting new hlog (hstate.trans h) hcpl hnone hcall
    | sent new hlog h hone hcall => exact .sent new hlog (hstate.trans h) hone hcall
  case onPass =>
    intro s x htagged hs
    by_cases hx : x = e
    · subst hx
      apply hs.pass
      apply (htagged x).resolve_right
      intro hinitial
      cases hs with
      | waiting _ _ hstate _ _ _ => cases hstate.symm.trans hinitial.1
      | sent _ _ hstate _ _ => cases hstate.symm.trans hinitial.1
    · exact (hs.of_local hx (Local.record s rfl)).of_local hx (flowPass_local (htagged.record _) x)

end Stage

/-- The task completes the command itself and the port is busy, which leaves `s₁`. -/
def Defers (env : HdcEnv) (s : Hdc) (cmd : HdcNvmeCmd) (reply : AdminReply) (s₁ : Hdc) : Prop :=
  s.step env (.nvmeCmd cmd reply) = some s₁ ∧
    ∃ res t, dispatchHostCmd env s cmd reply = some (res,t) ∧ res ≠ .processing ∧
      env.portIsAvailable t.sends = false

/-- Messages about other tags. The hardware gives a tag to a new command after its completion, and
answers requests only. -/
def others (e : Nat) (_ : Hdc) (l : HdcLabel) : Prop := l.tag ≠ e

section Deferred

variable {env : HdcEnv} {s s₁ s₂ t : Hdc} {cmd : HdcNvmeCmd} {reply : AdminReply}

/-- Only the datapath writes the state byte of a command that is not left to it. -/
theorem dispatchHostCmd_state {res : NvmeRequest} (h : dispatchHostCmd env s cmd reply = some (res,t))
    (hres : res ≠ .processing) : (t.entry cmd.tag).state = (s.entry cmd.tag).state := by
  obtain ⟨u,hu,-,hcases⟩ := dispatchHostCmd_cases h
  have hsave : (u.entry cmd.tag).state = (s.entry cmd.tag).state := by
    rw [hu,saveInHostCmdEntry,Hdc.setEntry_self]
    rfl
  rw [← hsave]
  rcases hcases with hadmin | ⟨-,hio⟩
  · unfold handleNvmeAdminCommand at hadmin
    split at hadmin
    case isTrue =>
      cases hadmin
      rw [Hdc.setStatus,Hdc.setEntry_self]
    case isFalse =>
      cases hadmin
      simp [Hdc.setStatus]
  · cases hio with
    | rejected sc _ => rw [Hdc.setStatus,Hdc.setEntry_self]
    | flow => exact absurd rfl hres
    | ignored => exact absurd rfl hres
    | unsupported x v _ _ hnext =>
      rw [Hdc.setStatus_state,(getNextHostCmdEntry_pending hnext).2.1]

theorem Defers.completeDirectly (h : Defers env s cmd reply s₁) :
    (s₁.entry cmd.tag).state = (s.entry cmd.tag).state ∧ cmd.tag ∈ s₁.cplPend ∧
      s₁.cpl cmd.tag = setupPhifCmdCpl (s₁.entry cmd.tag) := by
  obtain ⟨hstep,res,t,hdispatch,hres,hport⟩ := h
  rw [step_nvmeCmd,hdispatch] at hstep
  have hs₁ : (if res = .processing then t else Fw.completeDirectly env t cmd.tag) = s₁ :=
    Option.some.inj hstep
  rw [if_neg hres] at hs₁
  rw [← dispatchHostCmd_state hdispatch hres,← hs₁]
  simp [Fw.completeDirectly,sendPhifCmdCpl,sendMsg,Hdc.setCpl,hport]

theorem defers_stepOr (h : (dispatchHostCmd env s cmd reply).any fun r =>
    decide (r.1 ≠ .processing) && !env.portIsAvailable r.2.sends) :
    Defers env s cmd reply (stepOr env s (.nvmeCmd cmd reply)) := by
  cases hdispatch : dispatchHostCmd env s cmd reply with
  | none =>
    rw [hdispatch] at h
    cases h
  | some r =>
    rw [hdispatch] at h
    obtain ⟨hres,hport⟩ := Bool.and_eq_true_iff.mp h
    refine ⟨step_stepOr ?_,r.1,r.2,hdispatch,of_decide_eq_true hres,by simpa using hport⟩
    rw [step_nvmeCmd,hdispatch]
    rfl

/-- The port is busy at the second and the third attempt to send. -/
def busyTwice : HdcEnv := { busyAtFirst with portIsAvailable := fun n => n != 1 && n != 2 }

/-- An admin command with a flag that the handler refuses. -/
def refusedAdmin (tag : Nat) : HdcNvmeCmd := ⟨tag,0,0,0,0,⟨0x06,1 <<< 6,0,0,0,0,0⟩⟩

end Deferred

end Sdssd.Fw
