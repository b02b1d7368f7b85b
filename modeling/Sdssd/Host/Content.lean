import Sdssd.Host.Schedules

/-!
# What is programmed is what was written

The line commands of a full entity cover its slots once, and every slot carries the page of the bio
it was allotted to until the last line has completed.
-/

namespace Sdssd.Host

open Framework

variable {α : Type}

/-- The slots of a command, by its index and its zero-based length. -/
def PpaCommand.firstSlot (cmd : PpaCommand) : Nat := cmd.idx * cfgNandChannelNum

def PpaCommand.slots (cmd : PpaCommand) : List Nat := List.range' cmd.firstSlot (cmd.nlb + 1)

/-- The three slices of a command start at the same slot `p` of the entity `x`. -/
def PpaCommand.StartsAt (cmd : PpaCommand) (x : WcbLunEntity α) (p : Nat) : Prop :=
  cmd.ppalist = x.ppaDma + p * 8 ∧ cmd.metadata = x.metaDma + p * nandMetaSize ∧
    cmd.databuf = x.vdata + p * expPpaSize

theorem nvmeWrppaLun_covers (f : Ftl α) (e : Nat) :
    (nvmeWrppaLun f e).2.flatMap PpaCommand.slots = List.range raidLunSecNum ∧
      ∀ cmd ∈ (nvmeWrppaLun f e).2, cmd.StartsAt (f.ent e) cmd.firstSlot := by
  have hcmds : (nvmeWrppaLun f e).2 =
      (List.range cfgDriveLineNum).map (lineCommand { f.ent e with cqeFlag := 0 }) := by
    rw [← nvmeWrppaLun_ent_self]
    rfl
  rw [hcmds]
  constructor
  · rw [List.flatMap_map]
    rfl
  · intro cmd hm
    obtain ⟨line,-,rfl⟩ := List.mem_map.mp hm
    exact ⟨rfl,rfl,rfl⟩

/-- No step touches the slots of an entity that is full or in flight. -/
theorem Effect.slots_kept {s s' : WritePath α} {l : Label α} (h : Effect s l s') (hs : s.Sane) {e : Nat}
    (he : s.place e = .full ∨ s.place e = .flight) (p : Nat) :
    s'.ftl.dataAt (e,p) = s.ftl.dataAt (e,p) ∧ s'.ftl.ppaAt (e,p) = s.ftl.ppaAt (e,p) ∧
      s'.ftl.lbaAt (e,p) = s.ftl.lbaAt (e,p) := by
  have hframed (hf : Frame s.ftl s'.ftl) (hd : (s'.ftl.ent e).data = (s.ftl.ent e).data) :
      s'.ftl.dataAt (e,p) = s.ftl.dataAt (e,p) ∧ s'.ftl.ppaAt (e,p) = s.ftl.ppaAt (e,p) ∧
        s'.ftl.lbaAt (e,p) = s.ftl.lbaAt (e,p) :=
    ⟨congrFun hd p,hf.ppaAt _,hf.lbaAt _⟩
  cases h with
  | begin bio => exact ⟨rfl,rfl,rfl⟩
  | resubmit hc hpc hav => exact ⟨rfl,rfl,rfl⟩
  | @alloc i c r hc hpc hav hr =>
    obtain ⟨-,-,hall⟩ := allocWcbCore_sound hr
    obtain ⟨pl,eq,e₁,-,hsame⟩ := hs.allotPages hall
    have hent : r.ftl.ent e = s.ftl.ent e := by
      refine (hsame e ?_ ?_).2 <;> rcases he with he | he <;> simp [he]
    exact ⟨congrFun (congrArg WcbLunEntity.data hent) p,congrFun (congrArg WcbLunEntity.ppa hent) p,
      congrFun (congrArg WcbLunEntity.lba hent) p⟩
  | @copy i c slot todo adv hc hpc =>
    have hm : slot ∈ s.pending :=
      List.mem_flatMap.mpr ⟨c,List.mem_of_getElem? hc,by simp [BioCall.pending,hpc]⟩
    have hne : e ≠ slot.1 := by
      rintro rfl
      rcases (hs.filling_of_pending hm).1 with ⟨hp,-⟩ | ⟨hp,-⟩ <;> simp [hp] at he
    exact hframed (flushSlot_frame ..) (by rw [flushSlot_ent_of_ne _ _ _ _ hne])
  | map hc hpc hf => exact hframed (setL2ptblWritePath_frame hf) (by rw [setL2ptblWritePath_ent hf])
  | submit hp => exact hframed (submit_frame ..) (nvmeWrppaLun_data _ _ _)
  | complete hm => exact hframed (wrppaLunCompletion_frame ..) (wrppaLunCompletion_data _ _ _ _)

/-- In every state of every run: when a full entity is submitted, its line commands cover the 128
slots once, their three slices start at the same slots, slot `p` carries PPA `baddr + p`, and its
contents and LBA are those of the page of the bio for which it was allotted; and no step changes the
slots of an entity that is full or in flight. -/
theorem programmed_is_written {mcp : Bool} {d : Discovery} {b : BootPages} {dma : Nat → EntityDma}
    {f₀ : Ftl α} {s : WritePath α} (hinit : fscftlModuleInit mcp d b dma = .ok (some f₀))
    (hrun : Reaches WritePath.step writableBios (WritePath.init f₀) s) :
    (∀ e f cmds, submitWriteBackend s.ftl = some (e,f,cmds) →
      cmds.flatMap PpaCommand.slots = List.range raidLunSecNum ∧
      (∀ cmd ∈ cmds, cmd.StartsAt (s.ftl.ent e) cmd.firstSlot) ∧
      ∀ p, p < raidLunSecNum → s.ftl.ppaAt (e,p) = (s.ftl.ent e).baddr.toNat + p ∧
        ∃ i j c, s.owner (e,p) = some (i,j) ∧ s.calls[i]? = some c ∧ c.slots[j]? = some (e,p) ∧
          j < c.bio.pages.length ∧ s.ftl.dataAt (e,p) = c.bio.pages[j]? ∧
          s.ftl.lbaAt (e,p) = c.slba + j) ∧
    ∀ e, e < cbEntitysCnt → s.At e .full ∨ s.At e .flight → ∀ l s', s.step l = some s' → ∀ p,
      s'.ftl.dataAt (e,p) = s.ftl.dataAt (e,p) ∧ s'.ftl.ppaAt (e,p) = s.ftl.ppaAt (e,p) ∧
        s'.ftl.lbaAt (e,p) = s.ftl.lbaAt (e,p) := by
  obtain ⟨free,hboot,-,-⟩ := fscftlModuleInit_booted hinit
  obtain ⟨hs,ho⟩ := owned_of_reaches (sane_init hboot) (owned_init hboot) hrun
  refine ⟨?_,?_⟩
  · intro e f cmds hsub
    obtain ⟨⟨x,q,ln⟩,hpull,heq⟩ := Option.map_eq_some_iff.mp hsub
    simp only [Prod.mk.injEq] at heq
    obtain ⟨rfl,heq⟩ := heq
    obtain rfl : (nvmeWrppaLun (s.ftl.setFull q ln) x).2 = cmds := congrArg Prod.snd heq
    obtain ⟨hcover,hstart⟩ := nvmeWrppaLun_covers (s.ftl.setFull q ln) x
    have hfull : s.place x = .full := by
      rw [← hs.full_iff]
      cases hfq : s.fulls with
      | nil =>
        rw [pullLunEntityFromFifo,(Fifo.pull_eq_none_iff hs.fulls).mpr hfq] at hpull
        cases hpull
      | cons y fq =>
        obtain ⟨q',ln',hpull',-,-⟩ := (hfq ▸ hs.fulls).pull
        rw [pullLunEntityFromFifo,hpull',Option.some.injEq,Prod.mk.injEq] at hpull
        exact hpull.1 ▸ List.mem_cons_self
    have hidle : heldBy s.pending x = [] := by
      have hok := hs.ents x
      rw [hfull] at hok
      exact hok.1
    refine ⟨hcover,hstart,fun p hp => ?_⟩
    have hlive : Live s.ftl s.place (x,p) :=
      ⟨by simp [hfull],by simp [hfull],by rw [ho.striped.full_pos x (Or.inl hfull)]; exact hp⟩
    obtain ⟨i,j,c,hown,hc,hslot,hj,hlba,hdata⟩ := ho.slot (x,p) hlive
    refine ⟨ho.striped.ppa _ hlive,i,j,c,hown,hc,hslot,?_,hdata fun hm => ?_,hlba⟩
    · rw [← getBioNppa_eq]
      exact hj
    · have hm' := mem_heldBy.mpr hm
      rw [hidle] at hm'
      exact List.not_mem_nil hm'
  · intro e he hat l s' hstep p
    exact (step_effect hstep).slots_kept hs (hat.imp (hs.at_iff he _).mp (hs.at_iff he _).mp) p

/-- Two bios of 64 pages fill an entity, which is then submitted. -/
theorem programmed_is_written_full : ∃ (f₀ : Ftl Nat) (s : WritePath Nat) (f : Ftl Nat)
      (cmds : List PpaCommand),
    fscftlModuleInit true .clean ⟨true,true⟩ (fun _ => ⟨0,0,0⟩) = .ok (some f₀) ∧
    Reaches WritePath.step writableBios (WritePath.init f₀) s ∧
    submitWriteBackend s.ftl = some (0,f,cmds) ∧
    cmds.flatMap PpaCommand.slots = List.range raidLunSecNum ∧
    s.ftl.ppaAt (0,5) = (s.ftl.ent 0).baddr.toNat + 5 := by
  obtain ⟨f₀,free,hinit,hboot,hscan⟩ := manufactory_booted (α := Nat) .clean ⟨true,true⟩
    (fun _ => ⟨0,0,0⟩)
  obtain ⟨s,hran,hs⟩ := (stand_init hboot hscan).fill 7 (by decide) (by decide)
  have hrun := hran.run.mono writable_of_callers
  obtain ⟨q,ln,hpull,-,-⟩ := (hs.fulls ▸ hs.sane.fulls).pull
  have hsub : submitWriteBackend s.ftl = some (0,nvmeWrppaLun (s.ftl.setFull q ln) 0) := by
    rw [submitWriteBackend,pullLunEntityFromFifo,hpull]
    rfl
  obtain ⟨hcover,-,hslots⟩ := (programmed_is_written hinit hrun).1 _ _ _ hsub
  exact ⟨f₀,s,_,_,hinit,hrun,hsub,hcover,(hslots 5 (by decide)).1⟩

end Sdssd.Host
