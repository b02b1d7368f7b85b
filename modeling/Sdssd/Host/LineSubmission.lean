import Sdssd.Host.AllocSpec

/-!
# Failed submissions of lines

`nvme_wrppa_lun` makes one `nvme_submit_ppa_cmd` call for each line and looks at none of the results. A
call that fails leaves its line without a completion. Lines that were submitted complete at any time and
in any order, also while later lines are still being submitted.
-/

namespace Sdssd.Host

open Framework

variable {α : Type}

/-- The commands not yet handed to `nvme_submit_ppa_cmd`, and the lines whose completion is outstanding. -/
structure LunSubmission (α : Type) where
  ftl : Ftl α
  todo : List PpaCommand
  inflight : List Nat

inductive SubmissionLabel
  | submitLine
  | complete (line : Nat)

namespace LunSubmission

/-- `nvme_wrppa_lun` before its loop. -/
def start (f : Ftl α) (e : Nat) : LunSubmission α := ⟨(nvmeWrppaLun f e).1,(nvmeWrppaLun f e).2,[]⟩

/-- After the call for `cmd`; its result is dropped. -/
def called (s : LunSubmission α) (cmd : PpaCommand) (todo : List PpaCommand) (ok : Bool) :
    LunSubmission α :=
  { s with todo := todo, inflight := if ok then s.inflight ++ [cmd.idx] else s.inflight }

def completed (s : LunSubmission α) (e line : Nat) : LunSubmission α :=
  { s with ftl := wrppaLunCompletion s.ftl e line, inflight := s.inflight.erase line }

/-- The function `ok` tells which of the calls succeed. -/
def step (ok : Nat → Bool) (e : Nat) (s : LunSubmission α) : SubmissionLabel → Option (LunSubmission α)
  | .submitLine =>
    match s.todo with
    | [] => none
    | cmd :: todo => some (s.called cmd todo (ok cmd.idx))
  | .complete line => if line ∈ s.inflight then some (s.completed e line) else none

/-- All calls were made, and the lines that were submitted have completed. -/
def Settled (s : LunSubmission α) : Prop := s.todo = [] ∧ s.inflight = []

/-- The entity is in `empty_lun` or `full_lun`. -/
def Queued (e : Nat) (s : LunSubmission α) : Prop :=
  e ∈ s.ftl.wcb.emptyLun.toList s.ftl.wcb.link ∨ e ∈ s.ftl.wcb.fullLun.toList s.ftl.wcb.link

def todoLines (s : LunSubmission α) : List Nat := s.todo.map PpaCommand.idx

def flag (e : Nat) (s : LunSubmission α) : Nat := (s.ftl.ent e).cqeFlag

end LunSubmission

/-- The entity was pulled out of the queues. -/
structure Pulled (f : Ftl α) (e : Nat) (eq fq : List Nat) : Prop where
  empties : Fifo.Holds f.wcb.link f.wcb.emptyLun eq
  fulls : Fifo.Holds f.wcb.link f.wcb.fullLun fq
  notEmpty : e ∉ eq
  notFull : e ∉ fq
  index : e ≠ noIndex

/-- In a reachable state `submit_write_backend` pulls an entity that is in neither queue any more. -/
theorem WritePath.Sane.pulled {p : WritePath α} {e : Nat} {q : Fifo} {ln : Nat → Link} (hp : p.Sane)
    (hpull : p.ftl.wcb.fullLun.pull p.ftl.wcb.link = some (e,q,ln)) :
    ∃ fq, p.fulls = e :: fq ∧ Pulled (p.ftl.setFull q ln) e p.empties fq := by
  have hfulls := hp.fulls
  generalize p.fulls = fs at hfulls
  cases fs with
  | nil =>
    rw [(Fifo.pull_eq_none_iff hfulls).mpr rfl] at hpull
    cases hpull
  | cons x fq =>
    obtain ⟨q',ln',hpull',hrest,hlink⟩ := hfulls.pull
    rw [hpull] at hpull'
    obtain ⟨rfl,rfl,rfl⟩ : e = x ∧ q = q' ∧ ln = ln' := by simpa using hpull'
    have hplace : p.place e = .full := by
      rw [← hp.full_iff,WritePath.fulls,hfulls.toList_eq]
      exact List.mem_cons_self
    have hlt := hp.lt_of_ne_outside (e := e) (by simp [hplace])
    refine ⟨fq,rfl,?_,hrest,hp.notMem_empties (by simp [hplace]),(List.nodup_cons.mp hfulls.nodup).1,
      Conserved.noIndex_of_lt hlt⟩
    refine hp.empties.congr fun i hi => hlink i fun hfull => ?_
    rw [← hfulls.toList_eq] at hfull
    have := (hp.full_iff i).mp hfull
    rw [(hp.empty_iff i).mp hi] at this
    cases this

/-- A bit of `cqe_flag` is set exactly if the line was submitted and has completed, and the entity has
been freed exactly if all bits are set. -/
structure Accounted (ok : Nat → Bool) (e : Nat) (eq fq : List Nat) (n : Int) (s : LunSubmission α) :
    Prop where
  nodup : (s.todoLines ++ s.inflight).Nodup
  line_lt : ∀ l ∈ s.todoLines ++ s.inflight, l < 8
  submitted : ∀ l ∈ s.inflight, ok l = true
  flag_lt : s.flag e < 256
  bits : ∀ l, l < 8 → ((s.flag e).testBit l = true ↔ ok l = true ∧ l ∉ s.todoLines ++ s.inflight)
  held : s.flag e ≠ 255 → Fifo.Holds s.ftl.wcb.link s.ftl.wcb.emptyLun eq ∧
    Fifo.Holds s.ftl.wcb.link s.ftl.wcb.fullLun fq ∧ s.ftl.wcb.outstandingLun = n + 1
  freed : s.flag e = 255 → Fifo.Holds s.ftl.wcb.link s.ftl.wcb.emptyLun (eq ++ [e]) ∧
    s.ftl.wcb.outstandingLun = n

section Accounted

variable {ok : Nat → Bool} {f : Ftl α} {e : Nat} {eq fq : List Nat} {n : Int} {s s' : LunSubmission α}

theorem accounted_start (h : Pulled f e eq fq) :
    Accounted ok e eq fq f.wcb.outstandingLun (LunSubmission.start f e) := by
  have hlines : (LunSubmission.start f e).todoLines = List.range 8 := rfl
  have hflag : (LunSubmission.start f e).flag e = 0 := by
    rw [LunSubmission.flag,LunSubmission.start,nvmeWrppaLun_ent_self]
  constructor
  case nodup =>
    rw [hlines]
    show (List.range 8 ++ []).Nodup
    rw [List.append_nil]
    exact List.nodup_range
  case line_lt =>
    rw [hlines]
    simp [LunSubmission.start]
  case submitted =>
    intro l hl
    cases hl
  case flag_lt =>
    rw [hflag]
    decide
  case bits =>
    intro l hl
    rw [hflag,hlines]
    simp [hl]
  case held =>
    intro _
    exact ⟨h.empties,h.fulls,rfl⟩
  case freed =>
    intro hfull
    rw [hflag] at hfull
    cases hfull

theorem Accounted.submitLine {cmd : PpaCommand} {todo : List PpaCommand}
    (h : Accounted ok e eq fq n s) (htodo : s.todo = cmd :: todo) :
    Accounted ok e eq fq n (s.called cmd todo (ok cmd.idx)) := by
  have hlines : s.todoLines = cmd.idx :: todo.map PpaCommand.idx := by
    rw [LunSubmission.todoLines,htodo,List.map_cons]
  have hnodup := h.nodup
  have hlt := h.line_lt
  have hbits := h.bits
  rw [hlines,List.cons_append] at hnodup hlt
  simp only [hlines,List.cons_append] at hbits
  obtain ⟨hfresh,hrest⟩ := List.nodup_cons.mp hnodup
  cases hok : ok cmd.idx with
  | true =>
    -- the line moves from the one list to the other
    have hperm : (todo.map PpaCommand.idx ++ (s.inflight ++ [cmd.idx])).Perm
        (cmd.idx :: (todo.map PpaCommand.idx ++ s.inflight)) := by
      rw [← List.append_assoc]
      exact List.perm_append_singleton _ _
    refine ⟨hperm.nodup_iff.mpr hnodup,fun l hl => hlt l (hperm.mem_iff.mp hl),?_,h.flag_lt,?_,h.held,
      h.freed⟩
    · intro l hl
      rcases List.mem_append.mp (show l ∈ s.inflight ++ [cmd.idx] from hl) with hl | hl
      · exact h.submitted l hl
      · rw [List.mem_singleton.mp hl]
        exact hok
    · intro l hl
      exact (hbits l hl).trans (and_congr_right fun _ => not_congr hperm.mem_iff.symm)
  | false =>
    refine ⟨hrest,fun l hl => hlt l (List.mem_cons_of_mem _ hl),h.submitted,h.flag_lt,?_,h.held,h.freed⟩
    intro l hl
    refine (hbits l hl).trans (and_congr_right fun hokl => ?_)
    have hne : l ≠ cmd.idx := by
      rintro rfl
      rw [hok] at hokl
      cases hokl
    show _ ↔ l ∉ todo.map PpaCommand.idx ++ s.inflight
    rw [List.mem_cons,not_or,and_iff_right hne]

theorem Accounted.complete {line : Nat} (h : Accounted ok e eq fq n s) (hfresh : e ∉ eq)
    (hno : e ≠ noIndex) (hm : line ∈ s.inflight) : Accounted ok e eq fq n (s.completed e line) := by
  have hperm : (s.todoLines ++ s.inflight).Perm (line :: (s.todoLines ++ s.inflight.erase line)) :=
    ((List.perm_cons_erase hm).append_left _).trans List.perm_middle
  obtain ⟨hline,hrest⟩ := List.nodup_cons.mp (hperm.nodup_iff.mp h.nodup)
  have hlt := h.line_lt line (List.mem_append_right _ hm)
  have hclear : (s.flag e).testBit line = false := by
    rw [Bool.eq_false_iff,ne_eq,h.bits line hlt]
    exact fun hb => hb.2 (List.mem_append_right _ hm)
  have hspec := Conserved.lineFlag_spec h.flag_lt hlt hclear
  have hflag : (s.completed e line).flag e = lineFlag (s.ftl.ent e).cqeFlag line := by
    rw [LunSubmission.flag,LunSubmission.completed,wrppaLunCompletion_ent_self]
  have hbefore : s.flag e ≠ 255 := by
    intro hfull
    rw [hfull,show 255 = 2^8 - 1 from rfl,Nat.testBit_two_pow_sub_one] at hclear
    simp [hlt] at hclear
  obtain ⟨hempties,hfulls,hout⟩ := h.held hbefore
  have hwcb : (s.completed e line).ftl.wcb = _ := wrppaLunCompletion_wcb s.ftl e line
  constructor
  case nodup => exact hrest
  case line_lt => exact fun l hl => h.line_lt l (hperm.mem_iff.mpr (List.mem_cons_of_mem _ hl))
  case submitted => exact fun l hl => h.submitted l (List.mem_of_mem_erase hl)
  case flag_lt =>
    rw [hflag]
    exact hspec.1
  case bits =>
    intro l hl
    show _ ↔ ok l = true ∧ l ∉ s.todoLines ++ s.inflight.erase line
    rw [hflag]
    rw [show lineFlag (s.ftl.ent e).cqeFlag line = lineFlag (s.flag e) line from rfl,hspec.2,
      Bool.or_eq_true,decide_eq_true_iff,h.bits l hl,hperm.mem_iff]
    rcases eq_or_ne line l with rfl | hne
    · exact iff_of_true (Or.inr rfl) ⟨h.submitted line hm,hline⟩
    · rw [List.mem_cons,or_iff_left hne,not_or,and_iff_right (Ne.symm hne)]
  case held =>
    intro hmore
    rw [hwcb,if_neg (hflag ▸ hmore)]
    exact ⟨hempties,hfulls,hout⟩
  case freed =>
    intro hlast
    have hdec : s.ftl.wcb.outstandingLun - 1 = n := by omega
    rw [hwcb,if_pos (hflag ▸ hlast)]
    exact ⟨hempties.push hfresh hno,hdec⟩

theorem Accounted.step {l : SubmissionLabel} (h : Accounted ok e eq fq n s) (hfresh : e ∉ eq)
    (hno : e ≠ noIndex) (hl : s.step ok e l = some s') : Accounted ok e eq fq n s' := by
  cases l with
  | submitLine =>
    simp only [LunSubmission.step] at hl
    split at hl
    · cases hl
    · rename_i cmd todo htodo
      rw [← Option.some.inj hl]
      exact h.submitLine htodo
  | complete line =>
    simp only [LunSubmission.step,Option.ite_none_right_eq_some,Option.some.injEq] at hl
    rw [← hl.2]
    exact h.complete hfresh hno hl.1

/-- When everything has settled, the lines that were submitted are the bits of the flag. -/
theorem Accounted.full_iff (h : Accounted ok e eq fq n s) (hdone : s.Settled) :
    s.flag e = 255 ↔ ∀ line, line < 8 → ok line = true := by
  have hbits (l : Nat) (hl : l < 8) : (s.flag e).testBit l = true ↔ ok l = true := by
    rw [h.bits l hl,LunSubmission.todoLines,hdone.1,hdone.2]
    simp
  constructor
  · intro hfull line hline
    rw [← hbits line hline,hfull,show 255 = 2^8 - 1 from rfl,Nat.testBit_two_pow_sub_one]
    exact decide_eq_true hline
  · exact fun hall => Conserved.flag_eq_of_bits h.flag_lt fun l hl => (hbits l hl).mpr (hall l hl)

theorem Accounted.queued_iff (h : Accounted ok e eq fq n s) (hempty : e ∉ eq) (hfull : e ∉ fq)
    (hdone : s.Settled) :
    s.Queued e ∧ s.ftl.wcb.outstandingLun = n ↔ ∀ line, line < 8 → ok line = true := by
  rw [← h.full_iff hdone]
  constructor
  · rintro ⟨hqueued,-⟩
    by_contra hflag
    obtain ⟨hempties,hfulls,-⟩ := h.held hflag
    rw [LunSubmission.Queued,hempties.toList_eq,hfulls.toList_eq] at hqueued
    exact hqueued.elim hempty hfull
  · intro hflag
    obtain ⟨hempties,hout⟩ := h.freed hflag
    refine ⟨Or.inl ?_,hout⟩
    rw [hempties.toList_eq]
    exact List.mem_append_right _ List.mem_cons_self

/-- Every state settles: the remaining calls are made, and then the lines in flight complete. -/
theorem exists_settled (ok : Nat → Bool) (e : Nat) (s : LunSubmission α) :
    ∃ s', Reaches (LunSubmission.step ok e) always s s' ∧ s'.Settled := by
  have hdrain (lines : List Nat) : ∀ t : LunSubmission α, t.todo = [] → t.inflight = lines →
      ∃ t', Reaches (LunSubmission.step ok e) always t t' ∧ t'.Settled := by
    induction lines with
    | nil => exact fun t htodo hfly => ⟨t,Reaches.refl t,htodo,hfly⟩
    | cons line lines ih =>
      intro t htodo hfly
      have hstep : t.step ok e (.complete line) = some (t.completed e line) := if_pos (by simp [hfly])
      have hrest : (t.completed e line).inflight = lines := by simp [LunSubmission.completed,hfly]
      obtain ⟨t',hrun,hdone⟩ := ih (t.completed e line) htodo hrest
      exact ⟨t',(Reaches.single trivial hstep).trans hrun,hdone⟩
  generalize htodo : s.todo = todo
  induction todo generalizing s with
  | nil => exact hdrain s.inflight s htodo rfl
  | cons cmd todo ih =>
    have hstep : s.step ok e .submitLine = some (s.called cmd todo (ok cmd.idx)) := by
      simp only [LunSubmission.step,htodo]
    obtain ⟨s',hrun,hdone⟩ := ih (s.called cmd todo (ok cmd.idx)) rfl
    exact ⟨s',(Reaches.single trivial hstep).trans hrun,hdone⟩

end Accounted

/-- The entity comes back exactly if no submission failed. For every pattern of failures the calls and
completions settle, and in every state they settle in the entity is queued, with `outstanding_lun` as
before the submission, if and only if all calls succeeded. -/
theorem failed_line_leaks_iff {f : Ftl α} {e : Nat} {eq fq : List Nat} (h : Pulled f e eq fq)
    (ok : Nat → Bool) :
    (∃ s, Reaches (LunSubmission.step ok e) always (LunSubmission.start f e) s ∧ s.Settled) ∧
    ∀ s, Reaches (LunSubmission.step ok e) always (LunSubmission.start f e) s → s.Settled →
      (s.Queued e ∧ s.ftl.wcb.outstandingLun = f.wcb.outstandingLun ↔
        ∀ line, line < cfgDriveLineNum → ok line = true) := by
  refine ⟨exists_settled ok e _,fun s hrun hdone => ?_⟩
  have hs := hrun.invariant (Accounted ok e eq fq f.wcb.outstandingLun) (accounted_start h)
    fun t l u ht _ hl => ht.step h.notEmpty h.index hl
  exact hs.queued_iff h.notEmpty h.notFull hdone

private theorem pulled_three : Pulled twoEmpty 3 [1,2] [] :=
  ⟨ready_twoEmpty.queue,Fifo.holds_init _,by decide,by decide,by decide⟩

/-- All eight lines of entity 3 are submitted, and it comes back. -/
theorem failed_line_leaks_iff_none : ∃ s,
    Reaches (LunSubmission.step (fun _ => true) 3) always (LunSubmission.start twoEmpty 3) s ∧
      s.Settled ∧ s.Queued 3 ∧ s.ftl.wcb.outstandingLun = 0 := by
  obtain ⟨⟨s,hrun,hdone⟩,hiff⟩ := failed_line_leaks_iff pulled_three fun _ => true
  exact ⟨s,hrun,hdone,(hiff s hrun hdone).mpr fun _ _ => rfl⟩

/-- The call for line 5 fails: when the other seven lines have completed, entity 3 is in no queue. -/
theorem failed_line_leaks : ∃ s,
    Reaches (LunSubmission.step (fun line => line != 5) 3) always (LunSubmission.start twoEmpty 3) s ∧
      s.Settled ∧ ¬(s.Queued 3 ∧ s.ftl.wcb.outstandingLun = 0) := by
  obtain ⟨s,hrun,hdone⟩ := exists_settled (fun line => line != 5) 3 (LunSubmission.start twoEmpty 3)
  have hs := hrun.invariant (Accounted (fun line => line != 5) 3 [1,2] [] 0)
    (accounted_start pulled_three) fun t l u ht _ hl => ht.step (by decide) (by decide) hl
  refine ⟨s,hrun,hdone,fun h => ?_⟩
  have hall := (hs.queued_iff (by decide) (by decide) hdone).mp h
  exact absurd (hall 5 (by decide)) (by decide)

end Sdssd.Host
