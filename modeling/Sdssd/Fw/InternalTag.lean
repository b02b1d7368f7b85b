import Mathlib.Data.List.Nodup
import Sdssd.Framework.Steps

/-!
# Tags of internal commands

`fw_alloc_itnl_tag` looks for a clear bit in the part of the tag bitmap that belongs to the type of
the request, and `fw_free_itnl_tag` clears the bit of a tag.
-/

namespace Sdssd.Fw

open Framework

def fwWdmaReqCnt : Nat := 32
def fwRdmaReqCnt : Nat := 32
def fwOtherReqCnt : Nat := 64

/-- The types of internal commands that `fw_cmd_ctl_ctx` assigns tags to. -/
inductive FwReqType
  | wdma
  | rdma
  | other
  deriving DecidableEq, Repr

/-- First tag of a type. -/
def FwReqType.first : FwReqType → Nat
  | .wdma => 0
  | .rdma => fwWdmaReqCnt
  | .other => fwWdmaReqCnt + fwRdmaReqCnt

/-- Number of tags of a type. -/
def FwReqType.cnt : FwReqType → Nat
  | .wdma => fwWdmaReqCnt
  | .rdma => fwRdmaReqCnt
  | .other => fwOtherReqCnt

/-- The tag belongs to the type. -/
def FwReqType.Owns (ty : FwReqType) (tag : Nat) : Prop := ty.first ≤ tag ∧ tag < ty.first + ty.cnt

theorem FwReqType.first_inj {ty ty' : FwReqType} (h : ty.first = ty'.first) : ty = ty' := by
  revert h
  cases ty <;> cases ty' <;> decide

theorem FwReqType.owns_first (ty : FwReqType) : ty.Owns ty.first := by
  apply And.intro (Nat.le_refl _)
  cases ty <;> decide

/-- `u64 itnl_tag[2]`. -/
abbrev TagBitmap := BitVec 128

/-- The lowest clear bit from `start` to `last`; past the range when all are set. -/
def findFirstZeroBitRange (bitmap : TagBitmap) (start last : Nat) : Nat :=
  ((List.range' start (last+1-start)).find? fun i => !bitmap.getLsbD i).getD (last+1)

/-- `bit_clear`, on the bitmap as one word. -/
def bitClear (bitmap : TagBitmap) (bitnum : Nat) : TagBitmap := bitmap &&& ~~~(1#128 <<< bitnum)

/-- The switch has no case for other types and leaves both bounds uninitialised then. -/
def fwAllocItnlTag (bitmap : TagBitmap) : FwReqType → Option Nat
  | .wdma => some (findFirstZeroBitRange bitmap 0 (fwWdmaReqCnt-1))
  | .rdma => some (findFirstZeroBitRange bitmap fwWdmaReqCnt (fwWdmaReqCnt+fwRdmaReqCnt-1))
  | .other => none

def fwFreeItnlTag (bitmap : TagBitmap) (itnlTag : Nat) : TagBitmap := bitClear bitmap itnlTag

theorem getLsbD_bitClear {bitmap : TagBitmap} {i j : Nat} (h : j ≠ i) :
    (bitClear bitmap i).getLsbD j = bitmap.getLsbD j := by
  have hone : (1#128 <<< i).getLsbD j = false := by
    rw [BitVec.getLsbD_shiftLeft,BitVec.getLsbD_one]
    by_cases hlt : j < i
    · simp [hlt]
    · simp [Nat.sub_eq_zero_iff_le,Nat.lt_of_le_of_ne (Nat.le_of_not_lt hlt) (Ne.symm h)]
  by_cases hj : j < 128
  · rw [bitClear,BitVec.getLsbD_and,BitVec.getLsbD_not,hone]
    simp [hj]
  · simp [BitVec.getLsbD_of_ge _ j (Nat.le_of_not_lt hj)]

@[simp] theorem bitClear_zero (i : Nat) : bitClear 0 i = 0 := BitVec.zero_and

/-- While no bit is set, every request of a type is given the first tag of the type. -/
theorem fwAllocItnlTag_zero {ty : FwReqType} (h : ty ≠ .other) : fwAllocItnlTag 0 ty = some ty.first := by
  cases ty with
  | wdma => decide
  | rdma => decide
  | other => exact absurd rfl h

/-- The bitmap, and the tags given out and not yet freed, with their types. -/
structure Tags where
  itnlTag : TagBitmap
  held : List (FwReqType × Nat)
  deriving DecidableEq

/-- One call. -/
inductive TagLabel
  | alloc (ty : FwReqType)
  | free (tag : Nat)

namespace Tags

def init : Tags := ⟨0,[]⟩

/-- The tags that internal commands hold. -/
def tags (s : Tags) : List Nat := s.held.map Prod.snd

/-- Only a tag that some command holds is freed. -/
def step (s : Tags) : TagLabel → Option Tags
  | .alloc ty => (fwAllocItnlTag s.itnlTag ty).map fun tag => ⟨s.itnlTag,s.held ++ [(ty,tag)]⟩
  | .free tag =>
    if tag ∈ s.tags then
      some ⟨fwFreeItnlTag s.itnlTag tag,s.held.eraseP fun p => decide (p.2 = tag)⟩
    else none

end Tags

/-- What a call does to the bitmap and to the tags in use. -/
inductive TagEffect (s : Tags) : TagLabel → Tags → Prop
  | alloc {ty : FwReqType} {tag : Nat} (htag : fwAllocItnlTag s.itnlTag ty = some tag) :
      TagEffect s (.alloc ty) ⟨s.itnlTag,s.held ++ [(ty,tag)]⟩
  | free {tag : Nat} (hheld : tag ∈ s.tags) :
      TagEffect s (.free tag) ⟨bitClear s.itnlTag tag,s.held.eraseP fun p => decide (p.2 = tag)⟩

theorem Tags.step_effect {s t : Tags} {l : TagLabel} (h : s.step l = some t) : TagEffect s l t := by
  cases l with
  | alloc ty =>
    rw [step,Option.map_eq_some_iff] at h
    obtain ⟨tag,htag,rfl⟩ := h
    exact .alloc htag
  | free tag =>
    rw [step] at h
    split at h
    next hheld =>
      cases h
      exact .free hheld
    next => cases h

/-- A tag is asked for only for one of the two DMA types, and while no tag of that type is held. -/
def oneOfType (s : Tags) : TagLabel → Prop
  | .alloc ty => ty ≠ .other ∧ ∀ p ∈ s.held, p.1 ≠ ty
  | .free _ => True

/-- No bit is ever set, so every tag in use is the first of its type. -/
structure Tags.FirstOnly (s : Tags) : Prop where
  clear : s.itnlTag = 0
  first : ∀ p ∈ s.held, p.2 = p.1.first
  types : (s.held.map Prod.fst).Nodup

namespace Tags

variable {s t : Tags} {l : TagLabel}

theorem firstOnly_init : init.FirstOnly := by
  constructor
  case clear => rfl
  case first =>
    intro p hp
    cases hp
  case types => exact List.nodup_nil

theorem FirstOnly.step (h : s.FirstOnly) (hok : oneOfType s l) (hs : s.step l = some t) : t.FirstOnly := by
  cases Tags.step_effect hs with
  | @alloc ty tag htag =>
    rw [h.clear,fwAllocItnlTag_zero hok.1] at htag
    constructor
    case clear => exact h.clear
    case first =>
      intro p hp
      rcases List.mem_append.mp hp with hp | hp
      · exact h.first p hp
      · rw [List.mem_singleton.mp hp]
        exact (Option.some.inj htag).symm
    case types =>
      have hnew : ty ∉ s.held.map Prod.fst := by
        intro hmem
        obtain ⟨p,hp,hty⟩ := List.mem_map.mp hmem
        exact hok.2 p hp hty
      rw [List.map_append,List.map_singleton,← List.concat_eq_append]
      exact h.types.concat hnew
  | @free tag hheld =>
    have hsub : (s.held.eraseP fun p => decide (p.2 = tag)).Sublist s.held := List.eraseP_sublist
    constructor
    case clear => exact (congrArg (bitClear · tag) h.clear).trans (bitClear_zero tag)
    case first =>
      intro p hp
      exact h.first p (hsub.subset hp)
    case types => exact h.types.sublist (hsub.map Prod.fst)

theorem firstOnly_of_reaches (h : Reaches step oneOfType init s) : s.FirstOnly := by
  apply h.invariant FirstOnly firstOnly_init
  intro t l u ht hok hs
  exact ht.step hok hs

/-- Different commands in the list have different types, hence different first tags. -/
theorem FirstOnly.tags_nodup (h : s.FirstOnly) : s.tags.Nodup := by
  have htags : s.tags = (s.held.map Prod.fst).map FwReqType.first := by
    rw [tags,List.map_map]
    exact List.map_congr_left h.first
  rw [htags]
  exact h.types.map fun _ _ => FwReqType.first_inj

private theorem mem_eraseP_tag {held : List (FwReqType × Nat)} (hnodup : (held.map Prod.snd).Nodup)
    {tag : Nat} {p : FwReqType × Nat} :
    p ∈ held.eraseP (fun q => decide (q.2 = tag)) ↔ p ∈ held ∧ p.2 ≠ tag := by
  induction held with
  | nil => simp
  | cons q held ih =>
    rw [List.map_cons,List.nodup_cons] at hnodup
    by_cases hq : q.2 = tag
    · have hothers : p ∈ held → p.2 ≠ tag := by
        intro hp he
        exact hnodup.1 (hq.trans he.symm ▸ List.mem_map_of_mem hp)
      rw [List.eraseP_cons_of_pos (by simpa using hq),List.mem_cons]
      constructor
      · intro hp
        exact ⟨Or.inr hp,hothers hp⟩
      · rintro ⟨rfl | hp,hne⟩
        · exact absurd hq hne
        · exact hp
    · rw [List.eraseP_cons_of_neg (by simpa using hq),List.mem_cons,ih hnodup.2,List.mem_cons,or_and_right]
      have hself : p = q ↔ p = q ∧ p.2 ≠ tag := by
        constructor
        · rintro rfl
          exact ⟨rfl,hq⟩
        · exact And.left
      rw [← hself]

/-- Freeing a tag that one command holds takes away that command only. -/
theorem step_free (hnodup : s.tags.Nodup) {tag : Nat} (hs : s.step (.free tag) = some t) :
    (∀ p, p ∈ t.held ↔ p ∈ s.held ∧ p.2 ≠ tag) ∧
      ∀ j, j ≠ tag → t.itnlTag.getLsbD j = s.itnlTag.getLsbD j := by
  cases Tags.step_effect hs with
  | free hheld =>
    constructor
    · intro p
      exact mem_eraseP_tag hnodup
    · intro j hj
      exact getLsbD_bitClear hj

end Tags

/-- As long as each type has at most one tag in use when a tag of the type is asked for, every request
gets a tag, tags in use differ and belong to their types, and a free takes away its own tag only. -/
theorem itnl_tags_distinct {s : Tags} (hrun : Reaches Tags.step oneOfType Tags.init s) :
    s.tags.Nodup ∧ (∀ p ∈ s.held, p.1.Owns p.2) ∧
      (∀ ty, oneOfType s (.alloc ty) → ∃ t, s.step (.alloc ty) = some t) ∧
      ∀ tag t, s.step (.free tag) = some t → (∀ p, p ∈ t.held ↔ p ∈ s.held ∧ p.2 ≠ tag) ∧
        ∀ j, j ≠ tag → t.itnlTag.getLsbD j = s.itnlTag.getLsbD j := by
  have hfirst := Tags.firstOnly_of_reaches hrun
  refine ⟨hfirst.tags_nodup,?_,?_,?_⟩
  · intro p hp
    rw [hfirst.first p hp]
    exact p.1.owns_first
  · intro ty hok
    apply Exists.intro
    rw [Tags.step,hfirst.clear,fwAllocItnlTag_zero hok.1]
    rfl
  · intro tag t hs
    exact Tags.step_free hfirst.tags_nodup hs

/-- One request of each DMA type is on its way. -/
theorem itnl_tags_distinct_two : Tags.tags ⟨0,[(.wdma,0),(.rdma,32)]⟩ = [0,32] ∧
    (Tags.tags ⟨0,[(.wdma,0),(.rdma,32)]⟩).Nodup := by
  have hwdma : Reaches Tags.step oneOfType Tags.init ⟨0,[(.wdma,0)]⟩ := by
    apply Reaches.single (l := .alloc .wdma) (by simp [oneOfType,Tags.init])
    decide
  have hboth := hwdma.tail (l := .alloc .rdma) (u := ⟨0,[(.wdma,0),(.rdma,32)]⟩)
    (by simp [oneOfType]) (by decide)
  exact ⟨rfl,(itnl_tags_distinct hboth).1⟩

/-- The second of two requests of a type gets the tag the first one still holds. -/
theorem itnl_tag_given_twice :
    Reaches Tags.step always Tags.init ⟨0,[(.wdma,0),(.wdma,0)]⟩ ∧
      ¬ (Tags.tags ⟨0,[(.wdma,0),(.wdma,0)]⟩).Nodup := by
  constructor
  · have hrun : [TagLabel.alloc .wdma,.alloc .wdma].foldlM Tags.step Tags.init =
        some ⟨0,[(.wdma,0),(.wdma,0)]⟩ := by decide
    exact Reaches.of_foldlM hrun
  · decide

end Sdssd.Fw
