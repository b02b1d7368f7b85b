import Sdssd.Host.Schedules

/-!
# Postponed writes

A bio for which no cache entity is available is put on `requeue_wr_bios`. The completion of an entity
signals `lun_completion` when it finds the list non-empty, and `fscftl_rewr_kthread` then processes
the list again. The test of the list, the addition to it and the reset of the completion are separate
steps.
-/

namespace Sdssd.Host

open Framework

variable {α : Type}

/-- The next statement of `fscftl_rewr_kthread`; in `process` it runs call `i` of `process_write_bio`
from inside `resubmit_wr_bios_list`. -/
inductive RewrPc
  | reinit
  | wait
  | resubmit
  | process (i : Nat)
  deriving DecidableEq, Repr

/-- The write path with the contexts around `requeue_wr_bios`: the calls `fscftl_make_rq` waits for or
whose bio it is about to add, the rewr thread, the count of `lun_completion`, and how many completion
handlers are before their test of the list and before their `complete()`. -/
structure RequeueSystem (α : Type) where
  path : WritePath α
  requeueWrBios : List (Bio α)
  submitters : List Nat
  rewr : RewrPc
  lunCompletion : Nat
  tests : Nat
  signals : Nat

def RequeueSystem.init (f : Ftl α) : RequeueSystem α := ⟨WritePath.init f,[],[],.reinit,0,0,0⟩

inductive RequeueLabel (α : Type)
  | path (l : Label α)
  | makeRq (bio : Bio α)
  | makeRqReturn (i : Nat)
  | listTest
  | complete
  | reinitCompletion
  | waitForCompletion
  | resubmit
  | resubmitReturn

/-- How many entities a step pushes to `empty_lun`. -/
def WritePath.emptied (s : WritePath α) : Label α → Nat
  | .complete e line =>
    if lineFlag (s.ftl.ent e).cqeFlag line = bit2Mask cfgDriveLineNum % 2^16 then 1 else 0
  | _ => 0

/-- `process_write_bio` is entered: the index of the call is the number of calls before it. -/
def WritePath.enter (s : WritePath α) (bio : Bio α) : WritePath α :=
  { s with calls := s.calls ++ [⟨bio,.start,[],[]⟩] }

def RequeueSystem.step (s : RequeueSystem α) : RequeueLabel α → Option (RequeueSystem α)
  | .path (.begin _) => none
  | .path l => (s.path.step l).map fun p => { s with path := p, tests := s.tests + s.path.emptied l }
  | .makeRq bio =>
    match s.requeueWrBios with
    | [] => some { s with
        path := s.path.enter bio
        submitters := s.submitters ++ [s.path.calls.length] }
    | b :: bs => some { s with requeueWrBios := b :: bs ++ [bio] }
  | .makeRqReturn i =>
    if i ∈ s.submitters then s.path.calls[i]?.bind fun c =>
      match c.pc with
      | .returned .complete => some { s with submitters := s.submitters.erase i }
      | .returned .resubmit => some { s with
          submitters := s.submitters.erase i
          requeueWrBios := c.bio :: s.requeueWrBios }
      | _ => none
    else none
  | .listTest =>
    if s.tests = 0 then none
    else some { s with
      tests := s.tests - 1
      signals := if s.requeueWrBios.isEmpty then s.signals else s.signals + 1 }
  | .complete =>
    if s.signals = 0 then none
    else some { s with signals := s.signals - 1, lunCompletion := s.lunCompletion + 1 }
  | .reinitCompletion =>
    if s.rewr = .reinit then some { s with rewr := .wait, lunCompletion := 0 } else none
  | .waitForCompletion =>
    if s.rewr = .wait ∧ s.lunCompletion ≠ 0 then
      some { s with rewr := .resubmit, lunCompletion := s.lunCompletion - 1 }
    else none
  | .resubmit =>
    if s.rewr = .resubmit then
      match s.requeueWrBios with
      | [] => some { s with rewr := .reinit }
      | b :: bs => some { s with
          path := s.path.enter b
          requeueWrBios := bs
          rewr := .process s.path.calls.length }
    else none
  | .resubmitReturn =>
    match s.rewr with
    | .process i => s.path.calls[i]?.bind fun c =>
      match c.pc with
      | .returned .complete => some { s with rewr := .resubmit }
      | .returned .resubmit => some { s with rewr := .reinit, requeueWrBios := c.bio :: s.requeueWrBios }
      | _ => none
    | _ => none

/-- Call `i` has returned `FSCFTL_BIO_RESUBMIT`. -/
def WritePath.Refused (s : WritePath α) (i : Nat) : Prop :=
  ∃ c, s.calls[i]? = some c ∧ c.pc = .returned .resubmit

/-- An entity is closed and still being filled, full, or in flight. -/
def WritePath.Busy (s : WritePath α) : Prop :=
  ∃ e, s.place e = .closing ∨ s.place e = .full ∨ s.place e = .flight

/-- A bio was refused and is not yet on the list. -/
def RequeueSystem.InHand (s : RequeueSystem α) : Prop :=
  ∃ i, (i ∈ s.submitters ∨ s.rewr = .process i) ∧ s.path.Refused i

def RequeueSystem.Waiting (s : RequeueSystem α) : Prop := s.requeueWrBios ≠ [] ∨ s.InHand

/-- The rewr thread is going to look at the list once more. -/
def RequeueSystem.Draining (s : RequeueSystem α) : Prop :=
  s.rewr = .resubmit ∨ ∃ i, s.rewr = .process i ∧ ¬s.path.Refused i

/-- Everything a step can do, with the conditions under which it does it. -/
inductive RequeueEffect (s : RequeueSystem α) : RequeueLabel α → RequeueSystem α → Prop
  | path {l : Label α} {p : WritePath α} (hp : Effect s.path l p) :
      RequeueEffect s (.path l) { s with path := p, tests := s.tests + s.path.emptied l }
  | queued {bio : Bio α} (hl : s.requeueWrBios ≠ []) :
      RequeueEffect s (.makeRq bio) { s with requeueWrBios := s.requeueWrBios ++ [bio] }
  | entered {bio : Bio α} (hl : s.requeueWrBios = []) : RequeueEffect s (.makeRq bio) { s with
      path := s.path.enter bio
      submitters := s.submitters ++ [s.path.calls.length] }
  | ended {i : Nat} : RequeueEffect s (.makeRqReturn i) { s with submitters := s.submitters.erase i }
  | postponed {i : Nat} {c : BioCall α} (hi : i ∈ s.submitters) (hc : s.path.calls[i]? = some c)
      (hpc : c.pc = .returned .resubmit) : RequeueEffect s (.makeRqReturn i) { s with
        submitters := s.submitters.erase i
        requeueWrBios := c.bio :: s.requeueWrBios }
  | tested : RequeueEffect s .listTest { s with
      tests := s.tests - 1
      signals := if s.requeueWrBios.isEmpty then s.signals else s.signals + 1 }
  | signalled : RequeueEffect s .complete { s with
      signals := s.signals - 1
      lunCompletion := s.lunCompletion + 1 }
  | reinit (hr : s.rewr = .reinit) :
      RequeueEffect s .reinitCompletion { s with rewr := .wait, lunCompletion := 0 }
  | woken (hr : s.rewr = .wait) : RequeueEffect s .waitForCompletion { s with
      rewr := .resubmit
      lunCompletion := s.lunCompletion - 1 }
  | drained (hr : s.rewr = .resubmit) (hl : s.requeueWrBios = []) :
      RequeueEffect s .resubmit { s with rewr := .reinit }
  | popped {b : Bio α} {bs : List (Bio α)} (hr : s.rewr = .resubmit) (hl : s.requeueWrBios = b :: bs) :
      RequeueEffect s .resubmit { s with
        path := s.path.enter b
        requeueWrBios := bs
        rewr := .process s.path.calls.length }
  | popEnded {i : Nat} (hr : s.rewr = .process i) :
      RequeueEffect s .resubmitReturn { s with rewr := .resubmit }
  | popPostponed {i : Nat} {c : BioCall α} (hr : s.rewr = .process i) (hc : s.path.calls[i]? = some c)
      (hpc : c.pc = .returned .resubmit) : RequeueEffect s .resubmitReturn { s with
        rewr := .reinit
        requeueWrBios := c.bio :: s.requeueWrBios }

theorem requeueStep_effect {s s' : RequeueSystem α} {l : RequeueLabel α} (h : s.step l = some s') :
    RequeueEffect s l s' := by
  cases l with
  | path l =>
    cases l with
    | begin bio => cases h
    | _ =>
      obtain ⟨p,hp,rfl⟩ := Option.map_eq_some_iff.mp h
      exact .path (step_effect hp)
  | makeRq bio =>
    simp only [RequeueSystem.step] at h
    split at h
    · rename_i hl
      exact Option.some.inj h ▸ .entered hl
    · rename_i b bs hl
      rw [← hl] at h
      exact Option.some.inj h ▸ .queued (by simp [hl])
  | makeRqReturn i =>
    simp only [RequeueSystem.step,Option.ite_none_right_eq_some] at h
    obtain ⟨hi,h⟩ := h
    obtain ⟨c,hc,h⟩ := Option.bind_eq_some_iff.mp h
    split at h
    · exact Option.some.inj h ▸ .ended
    · rename_i hpc
      exact Option.some.inj h ▸ .postponed hi hc hpc
    · cases h
  | listTest =>
    simp only [RequeueSystem.step,Option.ite_none_left_eq_some,Option.some.injEq] at h
    exact h.2 ▸ .tested
  | complete =>
    simp only [RequeueSystem.step,Option.ite_none_left_eq_some,Option.some.injEq] at h
    exact h.2 ▸ .signalled
  | reinitCompletion =>
    simp only [RequeueSystem.step,Option.ite_none_right_eq_some,Option.some.injEq] at h
    exact h.2 ▸ .reinit h.1
  | waitForCompletion =>
    simp only [RequeueSystem.step,Option.ite_none_right_eq_some,Option.some.injEq] at h
    exact h.2 ▸ .woken h.1.1
  | resubmit =>
    simp only [RequeueSystem.step,Option.ite_none_right_eq_some] at h
    obtain ⟨hr,h⟩ := h
    split at h
    · rename_i hl
      exact Option.some.inj h ▸ .drained hr hl
    · rename_i b bs hl
      exact Option.some.inj h ▸ .popped hr hl
  | resubmitReturn =>
    simp only [RequeueSystem.step] at h
    split at h
    · rename_i i hr
      obtain ⟨c,hc,h⟩ := Option.bind_eq_some_iff.mp h
      split at h
      · exact Option.some.inj h ▸ .popEnded hr
      · rename_i hpc
        exact Option.some.inj h ▸ .popPostponed hr hc hpc
      · cases h
    · cases h

/-! ### Refusals and busy entities -/

/-- With `empty_lun` empty, all entities but the open one are busy. -/
theorem WritePath.Sane.busy {s : WritePath α} (hs : s.Sane) (h : s.empties = []) : s.Busy := by
  obtain ⟨e,he,hne⟩ : ∃ e, e < cbEntitysCnt ∧ e ≠ s.part := by
    by_cases h0 : s.part = 0
    · exact ⟨1,by decide,by simp [h0]⟩
    · exact ⟨0,by decide,Ne.symm h0⟩
  refine ⟨e,?_⟩
  cases hp : s.place e with
  | outside => exact absurd ((hs.outside_iff e).mp hp) (Nat.not_le.mpr he)
  | empty =>
    have hm := (hs.empty_iff e).mpr hp
    rw [h] at hm
    exact absurd hm List.not_mem_nil
  | «open» => exact absurd ((hs.open_iff e).mp hp) hne
  | closing => exact Or.inl rfl
  | full => exact Or.inr (Or.inl rfl)
  | flight => exact Or.inr (Or.inr rfl)

theorem empties_of_unavailable {s : WritePath α} {n : Nat} (hs : s.Sane)
    (h : wcbAvailable s.ftl n = .ok false) : s.empties = [] := by
  rw [wcbAvailable,hs.isPart] at h
  simp only [Except.ok.injEq,Bool.not_eq_false',Bool.and_eq_true,beq_iff_eq] at h
  exact hs.empties.size_eq_zero_iff.mp h.2

/-- A busy entity stays busy, unless it is pushed to `empty_lun`. -/
theorem Effect.busy {s s' : WritePath α} {l : Label α} (h : Effect s l s') (hs : s.Sane)
    (hb : s.Busy) : s'.Busy ∨ s.emptied l ≠ 0 := by
  obtain ⟨hs',hshift⟩ := h.sane hs
  obtain ⟨e,he⟩ := hb
  cases hshift with
  | same _ _ hplace => exact Or.inl ⟨e,hplace ▸ he⟩
  | alloc _ _ _ hplace =>
    refine Or.inl ⟨e,?_⟩
    rwa [(hplace e (by rcases he with he | he | he <;> simp [he])
      (by rcases he with he | he | he <;> simp [he])).1]
  | filled _ x _ hplace => exact Or.inl ⟨x,Or.inr (Or.inl (by rw [hplace,Function.update_self]))⟩
  | submitted x _ hplace => exact Or.inl ⟨x,Or.inr (Or.inr (by rw [hplace,Function.update_self]))⟩
  | emptied x line _ _ _ _ _ hlast => exact Or.inr (by simp [WritePath.emptied,hlast,bit2Mask])

/-- A call is refused only when other entities are busy. -/
theorem Effect.refused {s s' : WritePath α} {l : Label α} (h : Effect s l s') (hs : s.Sane) {i : Nat}
    (hr : s'.Refused i) : s.Refused i ∨ s'.Busy := by
  obtain ⟨hs',hshift⟩ := h.sane hs
  obtain ⟨d,hd,hpc'⟩ := hr
  have hset {k : Nat} {d' : BioCall α} (hset : (s.calls.set k d')[i]? = some d)
      (hne : d'.pc ≠ .returned .resubmit) : s.Refused i := by
    rcases getElem?_set_cases hset with ⟨-,rfl⟩ | ⟨-,hold⟩
    · exact absurd hpc' hne
    · exact ⟨d,hold,hpc'⟩
  cases h with
  | begin bio =>
    rcases Nat.lt_or_ge i s.calls.length with hi | hi
    · exact Or.inl ⟨d,(List.getElem?_append_left hi).symm.trans hd,hpc'⟩
    · have hm := List.mem_of_getElem? ((List.getElem?_append_right hi).symm.trans hd)
      rw [List.mem_singleton.mp hm] at hpc'
      cases hpc'
  | resubmit hc hpc hav =>
    right
    cases hshift with
    | same _ _ hplace hempties => exact hs'.busy (hempties.trans (empties_of_unavailable hs hav))
    | alloc _ hpc' =>
      obtain ⟨todo,htodo⟩ := hpc' _ (getElem?_set_of_some hc _)
      cases htodo
  | alloc hc hpc hav hr => exact Or.inl (hset hd nofun)
  | copy hc hpc => exact Or.inl (hset hd nofun)
  | map hc hpc hf => exact Or.inl (hset hd nofun)
  | submit hp => exact Or.inl ⟨d,hd,hpc'⟩
  | complete hm => exact Or.inl ⟨d,hd,hpc'⟩

/-! ### No postponed bio is forgotten -/

/-- What is going to look after the postponed bios: an entity that is still busy, a completion handler
before its test of the list or before its signal, the signal, or the thread that drains the list. -/
inductive RequeueSystem.Attended (s : RequeueSystem α) : Prop
  | busy (h : s.path.Busy)
  | test (h : s.tests ≠ 0)
  | signal (h : s.signals ≠ 0)
  | completion (h : s.lunCompletion ≠ 0)
  | drain (h : s.Draining)

structure Heard (s : RequeueSystem α) : Prop where
  sane : s.path.Sane
  attended : s.Waiting → s.Attended

/-- The three steps after which a postponed bio may have nobody left: a completion handler finds the
list empty, `reinit_completion` drops a signal, a drain ends on the empty list. They are taken only
when no bio is postponed or an entity is still busy. -/
def signalsKept (s : RequeueSystem α) : RequeueLabel α → Prop
  | .listTest => s.requeueWrBios = [] → s.InHand → s.path.Busy
  | .reinitCompletion => s.lunCompletion ≠ 0 → s.Waiting → s.path.Busy
  | .resubmit => s.requeueWrBios = [] → s.InHand → s.path.Busy
  | _ => True

theorem WritePath.enter_not_refused (s : WritePath α) (bio : Bio α) :
    ¬(s.enter bio).Refused s.calls.length := by
  rintro ⟨c,hc,hpc⟩
  rw [WritePath.enter,List.getElem?_concat_length] at hc
  rw [← Option.some.inj hc] at hpc
  cases hpc

variable {s s' : RequeueSystem α}

/-- What was waiting before a step of the write path is attended after it. -/
private theorem Heard.path (hs : Heard s) {l : Label α} {p : WritePath α} (hp : Effect s.path l p)
    (hw : s.Waiting) (subs : List Nat) : RequeueSystem.Attended { s with
      path := p
      submitters := subs
      tests := s.tests + s.path.emptied l } := by
  cases hs.attended hw with
  | busy hb =>
    rcases hp.busy hs.sane hb with hb | he
    · exact .busy hb
    · exact .test (by simp only; omega)
  | test ht => exact .test (by simp only; omega)
  | signal hsig => exact .signal hsig
  | completion hdone => exact .completion hdone
  | drain hdrain =>
    rcases hdrain with hr | ⟨i,hr,hnot⟩
    · exact .drain (Or.inl hr)
    · by_cases hb : p.Busy
      · exact .busy hb
      · exact .drain (Or.inr ⟨i,hr,fun h' => (hp.refused hs.sane h').elim hnot hb⟩)

/-- Only the write path, the handlers, the completion and the rewr thread attend to a bio. -/
private theorem attended_of (hs : Heard s) (hw : s.Waiting) {bios : List (Bio α)} {subs : List Nat} :
    RequeueSystem.Attended { s with requeueWrBios := bios, submitters := subs } := by
  cases hs.attended hw with
  | busy hb => exact .busy hb
  | test ht => exact .test ht
  | signal hsig => exact .signal hsig
  | completion hdone => exact .completion hdone
  | drain hdrain => exact .drain hdrain

theorem RequeueEffect.heard {l : RequeueLabel α} (h : RequeueEffect s l s') (hs : Heard s)
    (hok : signalsKept s l) : Heard s' := by
  cases h with
  | @path l p hp =>
    refine ⟨(hp.sane hs.sane).1,fun hw => ?_⟩
    rcases hw with hw | ⟨i,hi,href⟩
    · exact hs.path hp (Or.inl hw) _
    · rcases hp.refused hs.sane href with href | hb
      · exact hs.path hp (Or.inr ⟨i,hi,href⟩) _
      · exact .busy hb
  | queued hl => exact ⟨hs.sane,fun _ => attended_of hs (Or.inl hl)⟩
  | @entered bio hl =>
    have hp := Effect.begin (s := s.path) bio
    refine ⟨(hp.sane hs.sane).1,fun hw => ?_⟩
    rcases hw with hw | ⟨i,hi,href⟩
    · exact absurd hl hw
    · have hne : i ≠ s.path.calls.length := fun he => s.path.enter_not_refused bio (he ▸ href)
      have hi' : i ∈ s.submitters ∨ s.rewr = .process i :=
        hi.imp_left fun hm => (List.mem_append.mp hm).resolve_right fun h' => hne (List.mem_singleton.mp h')
      rcases hp.refused hs.sane href with href | hb
      · exact hs.path hp (Or.inr ⟨i,hi',href⟩) _
      · exact .busy hb
  | @ended i =>
    refine ⟨hs.sane,fun hw => attended_of hs (hw.imp_right ?_)⟩
    rintro ⟨j,hj,href⟩
    exact ⟨j,hj.imp_left List.mem_of_mem_erase,href⟩
  | @postponed i c hi hc hpc => exact ⟨hs.sane,fun _ => attended_of hs (Or.inr ⟨i,Or.inl hi,c,hc,hpc⟩)⟩
  | tested =>
    refine ⟨hs.sane,fun hw => ?_⟩
    cases hl : s.requeueWrBios with
    | nil => exact .busy (hok hl (hw.resolve_left (not_not.mpr hl)))
    | cons b bs => exact .signal (by simp)
  | signalled => exact ⟨hs.sane,fun _ => .completion (Nat.succ_ne_zero _)⟩
  | reinit hr =>
    refine ⟨hs.sane,fun hw => ?_⟩
    have hw' : s.Waiting := by
      refine hw.imp_right ?_
      rintro ⟨i,hi,href⟩
      exact ⟨i,Or.inl (hi.resolve_right nofun),href⟩
    cases hs.attended hw' with
    | busy hb => exact .busy hb
    | test ht => exact .test ht
    | signal hsig => exact .signal hsig
    | completion hdone => exact .busy (hok hdone hw')
    | drain hdrain => simp [RequeueSystem.Draining,hr] at hdrain
  | woken hr => exact ⟨hs.sane,fun _ => .drain (Or.inl rfl)⟩
  | drained hr hl =>
    refine ⟨hs.sane,fun hw => .busy (hok hl ?_)⟩
    obtain ⟨i,hi,href⟩ := hw.resolve_left (not_not.mpr hl)
    exact ⟨i,Or.inl (hi.resolve_right nofun),href⟩
  | @popped b bs hr hl =>
    refine ⟨((Effect.begin (s := s.path) b).sane hs.sane).1,fun _ => ?_⟩
    exact .drain (Or.inr ⟨_,rfl,s.path.enter_not_refused b⟩)
  | popEnded hr => exact ⟨hs.sane,fun _ => .drain (Or.inl rfl)⟩
  | @popPostponed i c hr hc hpc =>
    refine ⟨hs.sane,fun _ => ?_⟩
    cases hs.attended (Or.inr ⟨i,Or.inr hr,c,hc,hpc⟩) with
    | busy hb => exact .busy hb
    | test ht => exact .test ht
    | signal hsig => exact .signal hsig
    | completion hdone => exact .completion hdone
    | drain hdrain =>
      -- the thread's own bio was refused, so it does not look at the list again
      rcases hdrain with hr' | ⟨j,hj,hnot⟩
      · rw [hr] at hr'
        cases hr'
      · rw [hr] at hj
        obtain rfl := RewrPc.process.inj hj
        exact absurd ⟨c,hc,hpc⟩ hnot

/-! ### Schedules -/

theorem Effect.calls_length {s s' : WritePath α} {l : Label α} (h : Effect s l s')
    (hl : ∀ bio, l ≠ .begin bio) : s'.calls.length = s.calls.length := by
  cases h with
  | begin bio => exact absurd rfl (hl bio)
  | resubmit => exact List.length_set
  | alloc => exact List.length_set
  | copy => exact List.length_set
  | map => exact List.length_set
  | submit => rfl
  | complete => rfl

section Schedules

variable {ok : RequeueSystem α → RequeueLabel α → Prop} {t t' : WritePath α}

/-- Bios are served by `fscftl_make_rq` while the list is empty. -/
private theorem makeRq_run (hmake : ∀ s bio, bio.Writable → ok s (.makeRq bio))
    (hpath : ∀ s l, ok s (.path l)) (h : Reaches WritePath.step byCallers t t') :
    Reaches RequeueSystem.step ok ⟨t,[],List.range t.calls.length,.wait,0,0,0⟩
      ⟨t',[],List.range t'.calls.length,.wait,0,0,0⟩ := by
  refine h.project (fun p => (⟨p,[],List.range p.calls.length,.wait,0,0,0⟩ : RequeueSystem α)) ?_
  intro p l u hl hu
  have hpathStep (hb : ∀ bio, l ≠ .begin bio) (he : p.emptied l = 0) :
      RequeueSystem.step ⟨p,[],List.range p.calls.length,.wait,0,0,0⟩ (.path l) =
        some ⟨u,[],List.range u.calls.length,.wait,0,0,0⟩ := by
    rw [(step_effect hu).calls_length hb]
    cases l with
    | begin bio => exact absurd rfl (hb bio)
    | _ => simp [RequeueSystem.step,hu,he]
  cases l with
  | begin bio =>
    obtain rfl := Option.some.inj hu
    refine Reaches.single (l := .makeRq bio) (hmake _ _ hl) ?_
    simp [RequeueSystem.step,WritePath.enter,List.range_succ]
  | submit => exact absurd hl id
  | complete e line => exact absurd hl id
  | _ => exact Reaches.single (hpath _ _) (hpathStep nofun rfl)

private theorem makeRq_return (hret : ∀ s i, ok s (.makeRqReturn i)) {subs : List Nat}
    (h : ∀ i ∈ subs, ∃ c, t.calls[i]? = some c ∧ c.pc = .returned .complete) :
    Reaches RequeueSystem.step ok ⟨t,[],subs,.wait,0,0,0⟩ ⟨t,[],[],.wait,0,0,0⟩ := by
  induction subs with
  | nil => exact Reaches.refl _
  | cons i subs ih =>
    obtain ⟨c,hc,hpc⟩ := h i List.mem_cons_self
    have hstep : RequeueSystem.step ⟨t,[],i :: subs,.wait,0,0,0⟩ (.makeRqReturn i) =
        some ⟨t,[],subs,.wait,0,0,0⟩ := by
      simp [RequeueSystem.step,hc,hpc]
    exact (Reaches.single (hret _ _) hstep).trans (ih fun j hj => h j (List.mem_cons_of_mem _ hj))

/-- The device works off full entities; no handler finds a bio on the list. -/
private theorem device_run (hpath : ∀ s l, ok s (.path l)) (htest : ∀ s, ok s .listTest)
    {subs : List Nat} (h : Reaches WritePath.step byDevice t t') :
    Reaches RequeueSystem.step ok ⟨t,[],subs,.wait,0,0,0⟩ ⟨t',[],subs,.wait,0,0,0⟩ := by
  refine h.project (fun p => (⟨p,[],subs,.wait,0,0,0⟩ : RequeueSystem α)) fun p l u hl hu => ?_
  have hstep : RequeueSystem.step ⟨p,[],subs,.wait,0,0,0⟩ (.path l) =
      some ⟨u,[],subs,.wait,0,p.emptied l,0⟩ := by
    cases l with
    | begin bio => exact absurd hl id
    | _ => simp [RequeueSystem.step,hu]
  have hrun := Reaches.single (hpath _ _) hstep
  have hcases : p.emptied l = 0 ∨ p.emptied l = 1 := by
    unfold WritePath.emptied
    split
    · split <;> simp
    · simp
  rcases hcases with he | he
  · rwa [he] at hrun
  · rw [he] at hrun
    exact hrun.tail (htest _) rfl

end Schedules

section Stand

variable {t : WritePath α} {e : Nat} {q fq : List Nat} {rest : List Slot} {all : List Nat} {k : Nat}

/-- A bio that is too long for the open entity is refused while no entity is empty. -/
private theorem Stand.refuse (h : Stand t e [] fq rest all k) (bio : Bio α)
    (hn : getBioNppa bio < 2^15)
    (hroom : raidLunSecNum ≤ k % raidLunSecNum + getBioNppa bio + getBioNppa bio / 4 + 2) :
    ∃ t', (t.enter bio).step (.wcbSection t.calls.length) = some t' ∧
      t'.calls = t.calls ++ [⟨bio,.returned .resubmit,[],[]⟩] ∧ t'.inflight = t.inflight ∧
      Stand t' e [] fq rest all k := by
  have hs₁ : (t.enter bio).Sane := ((Effect.begin bio).sane h.sane).1
  have hc : (t.enter bio).calls[t.calls.length]? = some ⟨bio,.start,[],[]⟩ := by simp [WritePath.enter]
  have hr : Ready t.ftl e [] := h.part ▸ h.empties ▸ h.sane.ready
  have hav : wcbAvailable (t.enter bio).ftl (getBioNppa bio) = .ok false := by
    refine (wcbAvailable_eq hr hn).trans ?_
    rw [h.pos,decide_eq_true hroom]
    rfl
  have heff : Effect (t.enter bio) (.wcbSection t.calls.length) _ := Effect.resubmit hc rfl hav
  have hset : ∀ c : BioCall α, (t.enter bio).calls.set t.calls.length c = t.calls ++ [c] := by
    intro c
    rw [WritePath.enter,List.set_append_right _ _ (Nat.le_refl _),Nat.sub_self]
    rfl
  obtain ⟨hs₂,hshift⟩ := heff.sane hs₁
  refine ⟨_,heff.step,hset _,rfl,?_⟩
  have hpend : ((t.enter bio).setCall t.calls.length ⟨bio,.returned .resubmit,[],[]⟩).pending = t.pending := by
    rw [WritePath.pending,WritePath.setCall,hset]
    simp [WritePath.pending,BioCall.pending]
  cases hshift with
  | same _ _ _ hempties hfulls hpart =>
    exact ⟨hs₂,h.exact,h.frontier,hpart.trans h.part,hempties.trans h.empties,hfulls.trans h.fulls,
      hpend ▸ h.pending⟩
  | alloc _ hpc =>
    obtain ⟨todo,htodo⟩ := hpc _ (getElem?_set_of_some hc _)
    cases htodo

/-- Fifteen entities are full and half of the last one is used; the next bio of 64 pages is refused,
and `fscftl_make_rq` has it in hand. -/
private theorem refused_run (ok : RequeueSystem α → RequeueLabel α → Prop) {f : Ftl α}
    {free : List Nat} (hboot : Booted f free) (hscan : free.Sublist scanOrder) (a : α)
    (hinit : ok (RequeueSystem.init f) .reinitCompletion) (hpath : ∀ s l, ok s (.path l))
    (hmake : ∀ s bio, bio.Writable → ok s (.makeRq bio)) (hret : ∀ s i, ok s (.makeRqReturn i)) :
    ∃ (t : WritePath α) (cs : List (BioCall α)), (∀ c ∈ cs, c.pc = .returned .complete) ∧
      t.calls = cs ++ [⟨fillerBio a 64 (by decide),.returned .resubmit,[],[]⟩] ∧ t.inflight = [] ∧
      Stand t 15 [] (List.range 15) [] (firstBlock free :: free.tail) 1984 ∧
      Reaches RequeueSystem.step ok (RequeueSystem.init f) ⟨t,[],[cs.length],.wait,0,0,0⟩ := by
  have hes : 0 :: List.range' 1 15 = List.range 15 ++ 15 :: [] := rfl
  obtain ⟨t₁,hran₁,h₁,-⟩ := (stand_init hboot hscan).fillAll a hes (by decide) (by decide)
  obtain ⟨t₂,hran₂,h₂⟩ := h₁.more a (n := 64) (by decide) (by decide) (by decide) (by decide)
    (Or.inl (by decide))
  have hran := hran₁.trans hran₂
  obtain ⟨hb,-,hn⟩ := fillerBio_writable a (n := 64) (by decide) (by decide)
  obtain ⟨t₃,hstep,hcalls,hinfl,h₃⟩ := h₂.refuse (fillerBio a 64 (by decide)) (by rw [hn]; decide)
    (by rw [hn]; decide)
  have hpc : ∀ c ∈ t₂.calls, c.pc = .returned .complete := by
    obtain ⟨new,hnew,hpc⟩ := hran.calls
    rw [hnew]
    exact hpc
  refine ⟨t₃,t₂.calls,hpc,hcalls,hinfl.trans hran.kept.inflight,by simpa using h₃,?_⟩
  have hrun₁ := (Reaches.single hinit rfl).trans (makeRq_run hmake hpath hran.run)
  have hrun₂ := hrun₁.trans (makeRq_return hret fun i hi => by
    have hlt := List.mem_range.mp hi
    exact ⟨_,List.getElem?_eq_getElem hlt,hpc _ (List.getElem_mem hlt)⟩)
  have hrun₃ := hrun₂.tail (hmake _ (fillerBio a 64 (by decide)) hb) rfl
  refine hrun₃.tail (hpath _ (.wcbSection t₂.calls.length)) ?_
  simp [RequeueSystem.step,hstep,WritePath.emptied]

end Stand

/-- A postponed bio is left alone: it is on the list, an entity is empty and none is full, being
filled or in flight, no call is in progress, every completion handler has returned, and the rewr
thread is blocked with nobody signalling it. -/
structure Stranded (s : RequeueSystem α) : Prop where
  queued : s.requeueWrBios ≠ []
  empty : s.path.empties ≠ []
  idle : ∀ e, e < cbEntitysCnt → ¬s.path.At e .full ∧ ¬s.path.At e .closing ∧ ¬s.path.At e .flight
  returned : ∀ c ∈ s.path.calls, ∃ ret, c.pc = .returned ret
  handlers : s.tests = 0 ∧ s.signals = 0
  blocked : s.rewr = .wait ∧ s.lunCompletion = 0

/-- In every run in which the signals for postponed bios are kept, none is stranded. -/
theorem postponed_not_stranded {mcp : Bool} {d : Discovery} {b : BootPages} {dma : Nat → EntityDma}
    {f₀ : Ftl α} {s : RequeueSystem α} (hinit : fscftlModuleInit mcp d b dma = .ok (some f₀))
    (hrun : Reaches RequeueSystem.step signalsKept (RequeueSystem.init f₀) s) : ¬Stranded s := by
  obtain ⟨free,hboot,-,-⟩ := fscftlModuleInit_booted hinit
  have h₀ : Heard (RequeueSystem.init f₀) := by
    refine ⟨sane_init hboot,fun hw => ?_⟩
    rcases hw with hw | ⟨i,hi,-⟩
    · exact absurd rfl hw
    · simp [RequeueSystem.init] at hi
  have hs := hrun.invariant Heard h₀ fun t l u ht hok hl => (requeueStep_effect hl).heard ht hok
  intro h
  cases hs.attended (Or.inl h.queued) with
  | busy hb =>
    obtain ⟨e,he⟩ := hb
    have hlt := hs.sane.lt_of_ne_outside (e := e) (by rcases he with he | he | he <;> simp [he])
    obtain ⟨hfull,hclosing,hflight⟩ := h.idle e hlt
    rw [hs.sane.at_iff hlt] at hfull hclosing hflight
    tauto
  | test ht => exact ht h.handlers.1
  | signal hsig => exact hsig h.handlers.2
  | completion hdone => exact hdone h.blocked.2
  | drain hdrain => simp [RequeueSystem.Draining,h.blocked.1] at hdrain

/-- A bio has been refused and put on the list while entities are full. -/
theorem postponed_not_stranded_full : ∃ (f₀ : Ftl Nat) (s : RequeueSystem Nat),
    fscftlModuleInit true .clean ⟨true,true⟩ (fun _ => ⟨0,0,0⟩) = .ok (some f₀) ∧
    Reaches RequeueSystem.step signalsKept (RequeueSystem.init f₀) s ∧ s.requeueWrBios.length = 1 ∧
    s.rewr = .wait ∧ s.lunCompletion = 0 ∧ ¬Stranded s := by
  obtain ⟨f₀,free,hinit,hboot,hscan⟩ := manufactory_booted (α := Nat) .clean ⟨true,true⟩
    (fun _ => ⟨0,0,0⟩)
  obtain ⟨t,cs,-,hcalls,-,-,hrun⟩ := refused_run signalsKept hboot hscan 7
    (fun h => absurd rfl h) (fun _ _ => trivial) (fun _ _ _ => trivial) (fun _ _ => trivial)
  have hadd : RequeueSystem.step ⟨t,[],[cs.length],.wait,0,0,0⟩ (.makeRqReturn cs.length) =
      some ⟨t,[fillerBio 7 64 (by decide)],[],.wait,0,0,0⟩ := by
    simp [RequeueSystem.step,hcalls]
  have hrun' := hrun.tail (l := .makeRqReturn cs.length) trivial hadd
  exact ⟨f₀,_,hinit,hrun',rfl,rfl,rfl,postponed_not_stranded hinit hrun'⟩

/-- The block layer sends writable bios only. -/
def writableRequests (_ : RequeueSystem α) : RequeueLabel α → Prop
  | .makeRq bio => bio.Writable
  | _ => True

/-- All full entities complete while `fscftl_make_rq` has a refused bio in hand. Their handlers find
the list empty; then the bio is added. -/
theorem postponed_stranded : ∃ (f₀ : Ftl Nat) (s : RequeueSystem Nat),
    fscftlModuleInit true .clean ⟨true,true⟩ (fun _ => ⟨0,0,0⟩) = .ok (some f₀) ∧
    Reaches RequeueSystem.step writableRequests (RequeueSystem.init f₀) s ∧ s.submitters = [] ∧
    Stranded s := by
  obtain ⟨f₀,free,hinit,hboot,hscan⟩ := manufactory_booted (α := Nat) .clean ⟨true,true⟩
    (fun _ => ⟨0,0,0⟩)
  obtain ⟨t,cs,hcs,hcalls,hinfl,hst,hrun⟩ := refused_run writableRequests hboot hscan 7
    trivial (fun _ _ => trivial) (fun _ _ h => h) (fun _ _ => trivial)
  obtain ⟨u,hdr,hinfl',hst'⟩ := hst.drainAll
  have hrun' := hrun.trans (device_run (fun _ _ => trivial) (fun _ => trivial) hdr.run)
  have hadd : RequeueSystem.step ⟨u,[],[cs.length],.wait,0,0,0⟩ (.makeRqReturn cs.length) =
      some ⟨u,[fillerBio 7 64 (by decide)],[],.wait,0,0,0⟩ := by
    simp [RequeueSystem.step,hdr.calls,hcalls]
  refine ⟨f₀,_,hinit,hrun'.tail (l := .makeRqReturn cs.length) trivial hadd,rfl,?_⟩
  refine ⟨List.cons_ne_nil _ _,by simp [hst'.empties],fun e he => ⟨?_,?_,?_⟩,fun c hc => ?_,⟨rfl,rfl⟩,
    rfl,rfl⟩
  · simp [WritePath.At,hst'.fulls]
  · rintro ⟨-,-,p,hp⟩
    exact List.not_mem_nil (hst'.pending.mem_iff.mp hp)
  · rintro ⟨-,line,hm⟩
    rw [hinfl',hinfl] at hm
    exact List.not_mem_nil hm
  · rw [hdr.calls,hcalls] at hc
    rcases List.mem_append.mp hc with hc | hc
    · exact ⟨_,hcs c hc⟩
    · rw [List.mem_singleton.mp hc]
      exact ⟨_,rfl⟩

end Sdssd.Host
