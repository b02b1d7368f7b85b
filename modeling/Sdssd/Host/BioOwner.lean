import Sdssd.Framework.Log
import Sdssd.Framework.Steps
import Mathlib.Data.List.Count
import Sdssd.Host.WritePath

/-!
# Ownership of bios

`fscftl_make_rq` and `resubmit_wr_bios_list` (run by `fscftl_rewr_kthread`) hand write bios to each
other through `requeue_wr_bios`. Their sections under `biolist_lock` and the calls of
`process_write_bio` and `bio_endio` are the steps; `process_write_bio` returns what it likes.
-/

namespace Sdssd.Host

open Framework

/-- `bio_data_dir`. -/
inductive DataDir
  | read
  | write
  deriving DecidableEq, Repr

/-- The next statement of the `fscftl_make_rq` call for one bio. -/
inductive MakeRqPc
  | absent
  | biolist
  | process
  | endio
  | addHead
  | returned
  deriving DecidableEq, Repr

/-- The next statement of the rewr thread, with its bio. -/
inductive ResubmitPc (β : Type)
  | wait
  | pop
  | process (bio : β)
  | endio (bio : β)
  | addHead (bio : β)
  deriving DecidableEq, Repr

inductive BioEvent (β : Type)
  | process (bio : β) (ret : BioRet)
  | endio (bio : β)
  deriving DecidableEq, Repr

/-- Each submission is a bio of its own, so a `fscftl_make_rq` call is named by its bio. -/
structure BioSystem (β : Type) where
  requeueWrBios : List β
  caller : β → MakeRqPc
  rewr : ResubmitPc β
  log : List (BioEvent β)

inductive BioLabel (β : Type)
  | makeRq (bio : β)
  | biolistSection (bio : β)
  | processWriteBio (bio : β) (ret : BioRet)
  | bioEndio (bio : β)
  | bioListAddHead (bio : β)
  | rewrWake
  | rewrPop
  | rewrProcess (ret : BioRet)
  | rewrEndio
  | rewrAddHead

namespace BioSystem

variable {β : Type} [DecidableEq β]

def init : BioSystem β := ⟨[],fun _ => .absent,.wait,[]⟩

def setCaller (s : BioSystem β) (bio : β) (pc : MakeRqPc) : BioSystem β :=
  { s with caller := Function.update s.caller bio pc }

def step (dir : β → DataDir) (s : BioSystem β) : BioLabel β → Option (BioSystem β)
  | .makeRq bio =>
    if s.caller bio = .absent then
      some (s.setCaller bio (match dir bio with | .read => .endio | .write => .biolist))
    else none
  | .biolistSection bio =>
    if s.caller bio = .biolist then
      match s.requeueWrBios with
      | [] => some (s.setCaller bio .process)
      | b :: bs => some { s.setCaller bio .returned with requeueWrBios := b :: bs ++ [bio] }
    else none
  | .processWriteBio bio ret =>
    if s.caller bio = .process then
      some { s.setCaller bio (match ret with | .complete => .endio | .resubmit => .addHead) with
        log := s.log ++ [.process bio ret] }
    else none
  | .bioEndio bio =>
    if s.caller bio = .endio then
      some { s.setCaller bio .returned with log := s.log ++ [.endio bio] }
    else none
  | .bioListAddHead bio =>
    if s.caller bio = .addHead then
      some { s.setCaller bio .returned with requeueWrBios := bio :: s.requeueWrBios }
    else none
  | .rewrWake => if s.rewr = .wait then some { s with rewr := .pop } else none
  | .rewrPop =>
    if s.rewr = .pop then
      match s.requeueWrBios with
      | [] => some { s with rewr := .wait }
      | b :: bs => some { s with rewr := .process b, requeueWrBios := bs }
    else none
  | .rewrProcess ret =>
    match s.rewr with
    | .process bio => some { s with
        rewr := match ret with | .complete => .endio bio | .resubmit => .addHead bio
        log := s.log ++ [.process bio ret] }
    | _ => none
  | .rewrEndio =>
    match s.rewr with
    | .endio bio => some { s with rewr := .pop, log := s.log ++ [.endio bio] }
    | _ => none
  | .rewrAddHead =>
    match s.rewr with
    | .addHead bio => some { s with rewr := .wait, requeueWrBios := bio :: s.requeueWrBios }
    | _ => none

/-- Everything a step can do, with the conditions under which it does it. -/
inductive BioEffect (dir : β → DataDir) (s : BioSystem β) : BioSystem β → Prop
  | enterRead {b : β} (hpc : s.caller b = .absent) (hdir : dir b = .read) :
      BioEffect dir s (s.setCaller b .endio)
  | enterWrite {b : β} (hpc : s.caller b = .absent) (hdir : dir b = .write) :
      BioEffect dir s (s.setCaller b .biolist)
  | queueEmpty {b : β} (hpc : s.caller b = .biolist) (hq : s.requeueWrBios = []) :
      BioEffect dir s (s.setCaller b .process)
  | append {b : β} (hpc : s.caller b = .biolist) :
      BioEffect dir s { s.setCaller b .returned with requeueWrBios := s.requeueWrBios ++ [b] }
  | complete {b : β} (hpc : s.caller b = .process) :
      BioEffect dir s { s.setCaller b .endio with log := s.log ++ [.process b .complete] }
  | resubmit {b : β} (hpc : s.caller b = .process) :
      BioEffect dir s { s.setCaller b .addHead with log := s.log ++ [.process b .resubmit] }
  | endio {b : β} (hpc : s.caller b = .endio) :
      BioEffect dir s { s.setCaller b .returned with log := s.log ++ [.endio b] }
  | addHead {b : β} (hpc : s.caller b = .addHead) :
      BioEffect dir s { s.setCaller b .returned with requeueWrBios := b :: s.requeueWrBios }
  | rewrTurn {pc : ResubmitPc β} (hpc : s.rewr = .wait ∨ s.rewr = .pop) (hpc' : pc = .wait ∨ pc = .pop) :
      BioEffect dir s { s with rewr := pc }
  | rewrPop {b : β} {bs : List β} (hpc : s.rewr = .pop) (hq : s.requeueWrBios = b :: bs) :
      BioEffect dir s { s with rewr := .process b, requeueWrBios := bs }
  | rewrComplete {b : β} (hpc : s.rewr = .process b) :
      BioEffect dir s { s with rewr := .endio b, log := s.log ++ [.process b .complete] }
  | rewrResubmit {b : β} (hpc : s.rewr = .process b) :
      BioEffect dir s { s with rewr := .addHead b, log := s.log ++ [.process b .resubmit] }
  | rewrEndio {b : β} (hpc : s.rewr = .endio b) :
      BioEffect dir s { s with rewr := .pop, log := s.log ++ [.endio b] }
  | rewrAddHead {b : β} (hpc : s.rewr = .addHead b) :
      BioEffect dir s { s with rewr := .wait, requeueWrBios := b :: s.requeueWrBios }

theorem step_bioEffect {dir : β → DataDir} {s s' : BioSystem β} {l : BioLabel β}
    (h : s.step dir l = some s') : BioEffect dir s s' := by
  cases l with
  | makeRq b =>
    simp only [step,Option.ite_none_right_eq_some,Option.some.injEq] at h
    rw [← h.2]
    cases hdir : dir b with
    | read => exact .enterRead h.1 hdir
    | write => exact .enterWrite h.1 hdir
  | biolistSection b =>
    simp only [step,Option.ite_none_right_eq_some] at h
    have happend : BioEffect dir s _ := .append h.1
    cases hq : s.requeueWrBios with
    | nil =>
      rw [hq,Option.some.injEq] at h
      rw [← h.2]
      exact .queueEmpty h.1 hq
    | cons x bs =>
      rw [hq,Option.some.injEq] at h
      rw [hq] at happend
      exact h.2 ▸ happend
  | processWriteBio b ret =>
    simp only [step,Option.ite_none_right_eq_some,Option.some.injEq] at h
    rw [← h.2]
    cases ret with
    | complete => exact .complete h.1
    | resubmit => exact .resubmit h.1
  | bioEndio b =>
    simp only [step,Option.ite_none_right_eq_some,Option.some.injEq] at h
    exact h.2 ▸ .endio h.1
  | bioListAddHead b =>
    simp only [step,Option.ite_none_right_eq_some,Option.some.injEq] at h
    exact h.2 ▸ .addHead h.1
  | rewrWake =>
    simp only [step,Option.ite_none_right_eq_some,Option.some.injEq] at h
    exact h.2 ▸ .rewrTurn (Or.inl h.1) (Or.inr rfl)
  | rewrPop =>
    simp only [step,Option.ite_none_right_eq_some] at h
    cases hq : s.requeueWrBios with
    | nil =>
      have hturn : BioEffect dir s { s with rewr := .wait } := .rewrTurn (Or.inr h.1) (Or.inl rfl)
      rw [hq,Option.some.injEq] at h
      rw [hq] at hturn
      exact h.2 ▸ hturn
    | cons b bs =>
      rw [hq,Option.some.injEq] at h
      exact h.2 ▸ .rewrPop h.1 hq
  | rewrProcess ret =>
    simp only [step] at h
    split at h
    · rename_i b hpc
      rw [Option.some.injEq] at h
      rw [← h]
      cases ret with
      | complete => exact .rewrComplete hpc
      | resubmit => exact .rewrResubmit hpc
    · cases h
  | rewrEndio =>
    simp only [step] at h
    split at h
    · rename_i b hpc
      rw [Option.some.injEq] at h
      exact h ▸ .rewrEndio hpc
    · cases h
  | rewrAddHead =>
    simp only [step] at h
    split at h
    · rename_i b hpc
      rw [Option.some.injEq] at h
      exact h ▸ .rewrAddHead hpc
    · cases h

end BioSystem

/-- Whether the call has been made at all. -/
def MakeRqPc.entered : MakeRqPc → Nat
  | .absent => 0
  | _ => 1

/-- Whether the call still has its bio. -/
def MakeRqPc.holds : MakeRqPc → Nat
  | .absent => 0
  | .returned => 0
  | _ => 1

/-- Whether the rewr thread has the bio. -/
def ResubmitPc.holds {β : Type} [DecidableEq β] (pc : ResubmitPc β) (b : β) : Nat :=
  match pc with
  | .wait => 0
  | .pop => 0
  | .process x => if x = b then 1 else 0
  | .endio x => if x = b then 1 else 0
  | .addHead x => if x = b then 1 else 0

namespace BioSystem

variable {β : Type} [DecidableEq β] {dir : β → DataDir} {s s' : BioSystem β} {b : β}

@[simp] theorem setCaller_requeueWrBios (pc : MakeRqPc) :
    (s.setCaller b pc).requeueWrBios = s.requeueWrBios := rfl

@[simp] theorem setCaller_log (pc : MakeRqPc) : (s.setCaller b pc).log = s.log := rfl

@[simp] theorem setCaller_rewr (pc : MakeRqPc) : (s.setCaller b pc).rewr = s.rewr := rfl

/-- How many threads hold the bio. -/
def holders (s : BioSystem β) (b : β) : Nat := (s.caller b).holds + s.rewr.holds b

/-- How often the bio is queued, held and ended, all together. -/
def shares (s : BioSystem β) (b : β) : Nat :=
  s.requeueWrBios.count b + s.holders b + s.log.count (.endio b)

/-- Every bio has one share once its call is made. -/
def Shared (s : BioSystem β) : Prop := ∀ b, s.shares b = (s.caller b).entered

/-- A call hands its own share on. -/
private theorem shared_call {x : β} {pc : MakeRqPc} {q : List β} {log : List (BioEvent β)}
    (hs : s.Shared) (hother : ∀ b, b ≠ x → q.count b + log.count (.endio b) =
      s.requeueWrBios.count b + s.log.count (.endio b))
    (hx : q.count x + log.count (.endio x) + pc.holds + (s.caller x).entered =
      s.requeueWrBios.count x + s.log.count (.endio x) + (s.caller x).holds + pc.entered) :
    Shared ⟨q,Function.update s.caller x pc,s.rewr,log⟩ := by
  intro b
  have hb := hs b
  unfold shares holders at *
  by_cases hbx : b = x
  · subst hbx
    simp only [Function.update_self]
    omega
  · have hrest := hother b hbx
    simp only [Function.update_of_ne hbx]
    omega

/-- The rewr thread hands the share of its bio on. -/
private theorem shared_rewr {pc : ResubmitPc β} {q : List β} {log : List (BioEvent β)}
    (hs : s.Shared) (hrewr : ∀ b, q.count b + log.count (.endio b) + pc.holds b =
      s.requeueWrBios.count b + s.log.count (.endio b) + s.rewr.holds b) :
    Shared ⟨q,s.caller,pc,log⟩ := by
  intro b
  have hb := hs b
  have hmove := hrewr b
  unfold shares holders at *
  simp only
  omega

/-- No step creates or loses a share; entering `fscftl_make_rq` gives the bio its only one. -/
theorem BioEffect.shared (h : BioEffect dir s s') (hs : s.Shared) : s'.Shared := by
  cases h with
  | enterRead hpc => exact shared_call hs (by simp) (by simp [hpc,MakeRqPc.holds,MakeRqPc.entered])
  | enterWrite hpc => exact shared_call hs (by simp) (by simp [hpc,MakeRqPc.holds,MakeRqPc.entered])
  | queueEmpty hpc => exact shared_call hs (by simp) (by simp [hpc,MakeRqPc.holds,MakeRqPc.entered])
  | append hpc =>
    apply shared_call hs
    · intro b hb
      simp [Ne.symm hb]
    · simp [hpc,MakeRqPc.holds,MakeRqPc.entered]
      omega
  | complete hpc => exact shared_call hs (by simp) (by simp [hpc,MakeRqPc.holds,MakeRqPc.entered])
  | resubmit hpc => exact shared_call hs (by simp) (by simp [hpc,MakeRqPc.holds,MakeRqPc.entered])
  | endio hpc =>
    apply shared_call hs
    · intro b hb
      simp [Ne.symm hb]
    · simp [hpc,MakeRqPc.holds,MakeRqPc.entered]
      omega
  | addHead hpc =>
    apply shared_call hs
    · intro b hb
      simp [Ne.symm hb]
    · simp [hpc,MakeRqPc.holds,MakeRqPc.entered]
      omega
  | rewrTurn hpc hpc' =>
    apply shared_rewr hs
    intro b
    rcases hpc with hpc | hpc <;> rcases hpc' with rfl | rfl <;> simp [hpc,ResubmitPc.holds]
  | rewrPop hpc hq =>
    apply shared_rewr hs
    intro b
    simp [hpc,hq,ResubmitPc.holds,List.count_cons]
    omega
  | rewrComplete hpc => exact shared_rewr hs (by simp [hpc,ResubmitPc.holds])
  | rewrResubmit hpc => exact shared_rewr hs (by simp [hpc,ResubmitPc.holds])
  | rewrEndio hpc =>
    apply shared_rewr hs
    intro b
    simp [hpc,ResubmitPc.holds,List.count_cons]
    omega
  | rewrAddHead hpc =>
    apply shared_rewr hs
    intro b
    simp [hpc,ResubmitPc.holds,List.count_cons]
    omega

/-- A bio held by its call is held by nobody else and not ended. -/
theorem Shared.of_call (hs : s.Shared) (hb : (s.caller b).holds = 1) :
    s.rewr.holds b = 0 ∧ .endio b ∉ s.log := by
  have hone := hs b
  have hle : (s.caller b).entered ≤ 1 := by cases s.caller b <;> simp [MakeRqPc.entered]
  unfold shares holders at hone
  exact ⟨by omega,List.count_eq_zero.mp (by omega)⟩

theorem Shared.of_rewr (hs : s.Shared) (hb : s.rewr.holds b = 1) :
    (s.caller b).holds = 0 ∧ .endio b ∉ s.log := by
  have hone := hs b
  have hle : (s.caller b).entered ≤ 1 := by cases s.caller b <;> simp [MakeRqPc.entered]
  unfold shares holders at hone
  exact ⟨by omega,List.count_eq_zero.mp (by omega)⟩

/-- Some thread is about to end the bio, or has ended it. -/
def Ending (s : BioSystem β) (b : β) : Prop :=
  s.caller b = .endio ∨ s.rewr = .endio b ∨ .endio b ∈ s.log

/-- A write bio is ended once and after a `process_write_bio` that completed it; it is not processed
again after that. -/
def bioRule (dir : β → DataDir) (before : List (BioEvent β)) : BioEvent β → Prop
  | .process b _ => dir b = .write → .process b .complete ∉ before
  | .endio b => dir b = .write → .process b .complete ∈ before ∧ .endio b ∉ before

/-- The write bios that were completed are those on their way out. -/
def CompletedEnd (dir : β → DataDir) (s : BioSystem β) : Prop :=
  ∀ b, dir b = .write → (.process b .complete ∈ s.log ↔ s.Ending b)

private theorem setCaller_endio_iff {x : β} {pc : MakeRqPc} (h : s.caller x ≠ .endio)
    (hpc : pc ≠ .endio) : (s.setCaller x pc).caller b = .endio ↔ s.caller b = .endio := by
  by_cases hb : b = x
  · simp [hb,setCaller,h,hpc]
  · simp [setCaller,Function.update_of_ne hb]

theorem BioEffect.completedEnd (h : BioEffect dir s s') (hs : CompletedEnd dir s) :
    CompletedEnd dir s' := by
  intro b hb
  have hiff := hs b hb
  unfold Ending at *
  cases h with
  | @enterRead x hpc hdir =>
    have hbx : b ≠ x := by
      intro hbx
      rw [← hbx,hb] at hdir
      cases hdir
    simpa [setCaller,Function.update_of_ne hbx] using hiff
  | enterWrite hpc => simpa [setCaller_endio_iff,hpc] using hiff
  | queueEmpty hpc => simpa [setCaller_endio_iff,hpc] using hiff
  | append hpc => simpa [setCaller_endio_iff,hpc] using hiff
  | @complete x hpc =>
    by_cases hbx : b = x
    · simp [hbx,setCaller]
    · simpa [hbx,setCaller,Function.update_of_ne hbx] using hiff
  | resubmit hpc => simpa [setCaller_endio_iff,hpc] using hiff
  | @endio x hpc =>
    by_cases hbx : b = x
    · simpa [hbx,hpc] using hiff
    · simpa [hbx,setCaller,Function.update_of_ne hbx] using hiff
  | addHead hpc => simpa [setCaller_endio_iff,hpc] using hiff
  | rewrTurn hpc hpc' =>
    rcases hpc with hpc | hpc <;> rcases hpc' with rfl | rfl <;> simpa [hpc] using hiff
  | rewrPop hpc hq => simpa [hpc] using hiff
  | @rewrComplete x hpc =>
    by_cases hbx : b = x
    · simp [hbx]
    · simpa [hbx,Ne.symm hbx,hpc] using hiff
  | rewrResubmit hpc => simpa [hpc] using hiff
  | @rewrEndio x hpc =>
    by_cases hbx : b = x
    · simpa [hbx,hpc] using hiff
    · simpa [hbx,Ne.symm hbx,hpc] using hiff
  | rewrAddHead hpc => simpa [hpc] using hiff

/-- What holds in every state: one share for each bio, a log that obeys the rule, and completion leads
to the end. -/
structure Owned (dir : β → DataDir) (s : BioSystem β) : Prop where
  shared : s.Shared
  completed : CompletedEnd dir s
  allowed : Allowed (bioRule dir) s.log

/-- A bio that some thread is about to process has not been completed. -/
theorem Owned.process_call (h : Owned dir s) (hpc : s.caller b = .process) (ret : BioRet) :
    bioRule dir s.log (.process b ret) := by
  intro hb hmem
  have hfree := h.shared.of_call (b := b) (by rw [hpc]; rfl)
  rcases (h.completed b hb).mp hmem with hend | hend | hend
  · rw [hpc] at hend
    cases hend
  · simp [hend,ResubmitPc.holds] at hfree
  · exact hfree.2 hend

theorem Owned.process_rewr (h : Owned dir s) (hpc : s.rewr = .process b) (ret : BioRet) :
    bioRule dir s.log (.process b ret) := by
  intro hb hmem
  have hfree := h.shared.of_rewr (b := b) (by simp [hpc,ResubmitPc.holds])
  rcases (h.completed b hb).mp hmem with hend | hend | hend
  · simp [hend,MakeRqPc.holds] at hfree
  · rw [hpc] at hend
    cases hend
  · exact hfree.2 hend

theorem Owned.endio_call (h : Owned dir s) (hpc : s.caller b = .endio) :
    bioRule dir s.log (.endio b) := by
  intro hb
  have hfree := h.shared.of_call (b := b) (by rw [hpc]; rfl)
  exact ⟨(h.completed b hb).mpr (Or.inl hpc),hfree.2⟩

theorem Owned.endio_rewr (h : Owned dir s) (hpc : s.rewr = .endio b) :
    bioRule dir s.log (.endio b) := by
  intro hb
  have hfree := h.shared.of_rewr (b := b) (by simp [hpc,ResubmitPc.holds])
  exact ⟨(h.completed b hb).mpr (Or.inr (Or.inl hpc)),hfree.2⟩

theorem BioEffect.allowed (h : BioEffect dir s s') (hs : Owned dir s) :
    Allowed (bioRule dir) s'.log := by
  cases h with
  | complete hpc => exact hs.allowed.snoc (hs.process_call hpc .complete)
  | resubmit hpc => exact hs.allowed.snoc (hs.process_call hpc .resubmit)
  | endio hpc => exact hs.allowed.snoc (hs.endio_call hpc)
  | rewrComplete hpc => exact hs.allowed.snoc (hs.process_rewr hpc .complete)
  | rewrResubmit hpc => exact hs.allowed.snoc (hs.process_rewr hpc .resubmit)
  | rewrEndio hpc => exact hs.allowed.snoc (hs.endio_rewr hpc)
  | _ => exact hs.allowed

theorem owned_init : Owned dir (init : BioSystem β) := by
  constructor
  case shared =>
    intro b
    rfl
  case completed =>
    intro b _
    simp [init,Ending]
  case allowed => exact Allowed.nil

theorem BioEffect.owned (h : BioEffect dir s s') (hs : Owned dir s) : Owned dir s' :=
  ⟨h.shared hs.shared,h.completedEnd hs.completed,h.allowed hs⟩

/-- In every interleaving each bio whose `fscftl_make_rq` call was made is queued once, held by one
thread or ended, and only one of these; and the log of `process_write_bio` and `bio_endio` calls obeys
the rule for write bios. -/
theorem bio_has_one_owner (hrun : Reaches (step dir) always init s) :
    (∀ b, s.caller b ≠ .absent →
      s.requeueWrBios.count b + s.holders b + s.log.count (.endio b) = 1) ∧
    Allowed (bioRule dir) s.log := by
  have hs := hrun.invariant (Owned dir) owned_init
    fun t l u ht _ hl => (step_bioEffect hl).owned ht
  refine ⟨fun b hb => (hs.shared b).trans ?_,hs.allowed⟩
  cases hpc : s.caller b with
  | absent => exact absurd hpc hb
  | _ => rfl

/-- Bio 0 is refused and put on the list; bio 1 arrives behind it; the rewr thread completes bio 0. -/
theorem bio_has_one_owner_resubmitted : ∃ s : BioSystem Nat,
    Reaches (step fun _ => .write) always init s ∧ s.requeueWrBios = [1] ∧
    s.requeueWrBios.count 0 + s.holders 0 + s.log.count (.endio 0) = 1 ∧
    s.log = [.process 0 .resubmit,.process 0 .complete,.endio 0] := by
  let labels : List (BioLabel Nat) := [.makeRq 0,.biolistSection 0,.processWriteBio 0 .resubmit,
    .bioListAddHead 0,.makeRq 1,.biolistSection 1,.rewrWake,.rewrPop,.rewrProcess .complete,.rewrEndio]
  let s : BioSystem Nat := (labels.foldlM (step fun _ => .write) init).getD init
  have hrun : Reaches (step fun _ => .write) always init s :=
    Reaches.of_foldlM (rfl : labels.foldlM (step fun _ => .write) init = some s)
  exact ⟨s,hrun,rfl,(bio_has_one_owner hrun).1 0 (by decide),rfl⟩

end BioSystem

end Sdssd.Host
