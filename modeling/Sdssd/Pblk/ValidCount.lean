import Sdssd.Framework.Bitmap
import Sdssd.Pblk.LiveSectors

/-!
# The number of valid sectors

`vsc` is counted down when a sector is marked invalid. It is the number of sectors that are not marked,
which is what the collection of a line counts on.
-/

namespace Sdssd.Pblk

open Framework

variable {δ : Type} {cfg : Config} {size : Nat}

namespace Line

/-- The sectors below `size` that are not marked. -/
def unmarked (size : Nat) (l : Line) : Nat := (List.range size).countP fun a => !l.invalidBitmap a

/-- Sectors were only marked, and each was counted off. -/
structure CountedOff (size : Nat) (l l' : Line) : Prop where
  marks : ∀ a, l.invalidBitmap a = true → l'.invalidBitmap a = true
  word : l.vsc < 2 ^ 32 → l'.vsc < 2 ^ 32
  vsc : (∀ a, size ≤ a → l'.invalidBitmap a = l.invalidBitmap a) →
    (l'.vsc + l.unmarked size) % 2 ^ 32 = (l.vsc + l'.unmarked size) % 2 ^ 32

namespace CountedOff

variable {l l' l'' : Line}

theorem of_same (hbits : l'.invalidBitmap = l.invalidBitmap) (hvsc : l'.vsc = l.vsc) : CountedOff size l l' := by
  refine ⟨fun a h => by rw [hbits]; exact h,fun h => by rw [hvsc]; exact h,fun _ => ?_⟩
  rw [unmarked,unmarked,hbits,hvsc]

theorem trans (h : CountedOff size l l') (h' : CountedOff size l' l'') : CountedOff size l l'' := by
  refine ⟨fun a ha => h'.marks a (h.marks a ha),fun hw => h'.word (h.word hw),?_⟩
  intro hout
  -- nothing outside was marked on the way
  have hmid : ∀ a, size ≤ a → l'.invalidBitmap a = l.invalidBitmap a := by
    intro a ha
    have hend := hout a ha
    cases hl : l.invalidBitmap a with
    | true => exact h.marks a hl
    | false =>
      cases hl' : l'.invalidBitmap a with
      | false => rfl
      | true =>
        rw [h'.marks a hl',hl] at hend
        cases hend
  have hfirst := h.vsc hmid
  have hsecond := h'.vsc fun a ha => (hout a ha).trans (hmid a ha).symm
  omega

end CountedOff

/-- One sector is marked and counted off. -/
theorem CountedOff.mark {l l' : Line} {a : Nat} (hbit : l.invalidBitmap a = false)
    (hbits : l'.invalidBitmap = Function.update l.invalidBitmap a true) (hvsc : l'.vsc = decU32 l.vsc) :
    CountedOff size l l' := by
  constructor
  · intro b hb
    rw [hbits]
    by_cases hba : b = a
    · rw [hba,Function.update_self]
    · rw [Function.update_of_ne hba]
      exact hb
  · intro _
    rw [hvsc,decU32]
    exact Nat.mod_lt _ (by decide)
  · intro hout
    have ha : a < size := by
      by_contra hge
      have := hout a (by omega)
      rw [hbits,Function.update_self,hbit] at this
      cases this
    have hmarked := bitmapWeight_update ha hbit
    have hold : bitmapWeight l.invalidBitmap size + l.unmarked size = size := bitmapWeight_not ..
    have hnew : bitmapWeight l'.invalidBitmap size + l'.unmarked size = size := bitmapWeight_not ..
    rw [hbits] at hnew
    rw [hvsc,decU32]
    omega

end Line

/-- The same for every line. -/
def LineMgmt.CountedOff (size : Nat) (m m' : LineMgmt) : Prop := ∀ i, (m.line i).CountedOff size (m'.line i)

namespace LineMgmt.CountedOff

variable {m m' m'' : LineMgmt}

theorem refl (m : LineMgmt) : CountedOff size m m := fun _ => .of_same rfl rfl

theorem trans (h : CountedOff size m m') (h' : CountedOff size m' m'') : CountedOff size m m'' :=
  fun i => (h i).trans (h' i)

theorem setLine {i : Nat} {l : Line} (h : (m.line i).CountedOff size l) : CountedOff size m (m.setLine i l) := by
  intro j
  have hline : (m.setLine i l).line j = if j = i then l else m.line j := Function.update_apply m.line i l j
  rw [hline]
  split
  · rename_i heq
    rw [heq]
    exact h
  · exact .of_same rfl rfl

theorem syncLine (i : Nat) : CountedOff size m (pblkSyncLine m i) := by
  have hset : CountedOff size m (m.setLine i { m.line i with leftSsecs := (m.line i).leftSsecs - 1 }) :=
    .setLine (.of_same rfl rfl)
  unfold pblkSyncLine
  dsimp only
  split
  · exact fun j => hset j
  · exact hset

theorem krefPutLocked {i : Nat} (h : krefPutLocked m i = some m') : CountedOff size m m' := by
  unfold Pblk.krefPutLocked at h
  split at h
  · cases h
  · cases h
    exact .setLine (.of_same rfl rfl)

theorem gcList {l l' : Line} {k : Option LineList} (h : pblkLineGcList cfg l = (l',k)) : l'.vsc = l.vsc := by
  have hfst : l' = (pblkLineGcList cfg l).1 := by rw [h]
  rw [hfst]
  unfold pblkLineGcList
  dsimp only
  split_ifs <;> rfl

/-- A sector that is marked already is not counted again. -/
theorem invalidate {a : DevAddr} : CountedOff size m (pblkPageInvalidate cfg m a) := by
  unfold pblkPageInvalidate
  dsimp only
  split
  · exact .refl m
  split
  · exact .refl m
  rename_i hbit
  rw [Bool.not_eq_true] at hbit
  split
  · split
    · rename_i l k heq
      have hvsc := gcList heq
      dsimp only at hvsc
      have hset : CountedOff size m (m.setLine a.line l) := .setLine (.mark hbit (LineMgmt.gcList_bits heq).1 hvsc)
      exact fun j => hset j
    · rename_i l heq
      have hvsc := gcList heq
      dsimp only at hvsc
      exact .setLine (.mark hbit (LineMgmt.gcList_bits heq).1 hvsc)
  · exact .setLine (.mark hbit rfl rfl)

theorem padInvalidate {a : DevAddr} (hbit : m.invalidAt a = false) : CountedOff size m (pblkPagePadInvalidate m a) := by
  refine CountedOff.trans (CountedOff.setLine (l := { m.line a.line with
    invalidBitmap := Function.update (m.line a.line).invalidBitmap a.paddr true
    vsc := decU32 (m.line a.line).vsc }) (.mark hbit rfl rfl)) (.syncLine a.line)

end LineMgmt.CountedOff

theorem Map.invalidate_countedOff {m : Map} {ppa : PpaAddr} :
    LineMgmt.CountedOff size m.lines (m.invalidate cfg ppa).lines := by
  cases ppa with
  | empty => exact .refl _
  | cacheline pos => exact .refl _
  | dev a =>
    change LineMgmt.CountedOff size m.lines (pblkPageInvalidate cfg m.lines a)
    exact .invalidate

/-! ## Pages -/

section Pages

variable (r : RingSize) (rb : Rb δ) (lines : LineMgmt) (sentry mapSecs : Nat)

theorem mapSector_countedOff (i : Nat) {a : DevAddr} (hbit : lines.invalidAt a = false) :
    LineMgmt.CountedOff size lines (mapSector r rb lines sentry mapSecs i a).2 := by
  have hget : LineMgmt.CountedOff size lines (krefGet lines a.line) := .setLine (.of_same rfl rfl)
  have hlba (x : Option Nat) : LineMgmt.CountedOff size lines ((krefGet lines a.line).setLine a.line
      { (krefGet lines a.line).line a.line with
        lbaList := Function.update ((krefGet lines a.line).line a.line).lbaList a.paddr x }) :=
    hget.trans (.setLine (.of_same rfl rfl))
  unfold mapSector
  dsimp only
  split
  · exact hlba _
  · refine (hlba none).trans (.padInvalidate ?_)
    have hsame : lines.Unmarked (krefGet lines a.line) := .setLine rfl rfl
    have hline (m : LineMgmt) (l : Line) : (m.setLine a.line l).line a.line = l := Function.update_self ..
    rw [LineMgmt.invalidAt,hline]
    exact (hsame a).1.trans hbit

theorem mapSectors_countedOff (line paddr n i : Nat)
    (hbits : ∀ k, i ≤ k → k < i + n → lines.invalidAt ⟨line,paddr + k⟩ = false) :
    LineMgmt.CountedOff size lines (mapSectors r sentry mapSecs line paddr n i rb lines).2 := by
  induction n generalizing i rb lines with
  | zero => exact .refl lines
  | succ n ih =>
    rw [mapSectors]
    refine (mapSector_countedOff r rb lines sentry mapSecs i (hbits i (Nat.le_refl i) (by omega))).trans (ih _ _ _ ?_)
    intro k hk hk'
    obtain ⟨hother,-⟩ := mapSector_lines r rb lines sentry mapSecs i ⟨line,paddr + i⟩
    have hne : (⟨line,paddr + k⟩ : DevAddr) ≠ ⟨line,paddr + i⟩ := by
      intro heq
      have := congrArg DevAddr.paddr heq
      dsimp only at this
      omega
    rw [(hother _ hne).1]
    exact hbits k (by omega) (by omega)

end Pages

namespace Ftl

variable {s s' : Ftl δ} {p : Nat}

theorem updateL2pEntry_countedOff {rb rb' : Rb δ} {m m' : Map} (h : updateL2pEntry cfg rb m = some (rb',m')) :
    LineMgmt.CountedOff size m.lines m'.lines := by
  unfold updateL2pEntry at h
  dsimp only at h
  split at h
  · obtain ⟨m₁,hm₁,h⟩ := Option.bind_eq_some_iff.mp h
    obtain ⟨lines,hlines,h⟩ := Option.bind_eq_some_iff.mp h
    obtain ⟨w,-,h⟩ := Option.map_eq_some_iff.mp h
    obtain ⟨-,rfl⟩ := Prod.mk.inj h
    refine LineMgmt.CountedOff.trans ?_ (.krefPutLocked hlines)
    unfold pblkUpdateMapDev at hm₁
    split at hm₁
    · split at hm₁
      · cases hm₁
        exact Map.invalidate_countedOff
      · cases hm₁
        exact .refl _
    · cases hm₁
  · cases h

theorem updateL2p_countedOff {n : Nat} {rb rb' : Rb δ} {m m' : Map} (h : updateL2p cfg n rb m = some (rb',m')) :
    LineMgmt.CountedOff size m.lines m'.lines := by
  refine updateL2p_keeps (fun _ t => LineMgmt.CountedOff size m.lines t.lines) ?_ (.refl _) h
  intro a t b t' ht hentry
  exact ht.trans (updateL2pEntry_countedOff hentry)

theorem discard_countedOff (m : Map) (slba n : Nat) :
    LineMgmt.CountedOff size m.lines (pblkInvalidateRange cfg m slba n).lines := by
  induction n generalizing m slba with
  | zero => exact .refl _
  | succ n ih =>
    have hone : LineMgmt.CountedOff size m.lines ((m.invalidate cfg (m.transMap slba)).set slba .empty).lines :=
      Map.invalidate_countedOff
    exact hone.trans (ih _ (slba + 1))

theorem insert_countedOff {j : Nat} (h : s.insert cfg j = some s') :
    LineMgmt.CountedOff size s.map.lines s'.map.lines := by
  obtain ⟨pos,x,m,-,-,hm,rfl⟩ := insert_effect h
  cases hsrc : x.src with
  | user =>
    rw [hsrc] at hm
    dsimp only at hm
    unfold pblkUpdateMapCache at hm
    split at hm
    · cases hm
      exact Map.invalidate_countedOff
    · cases hm
  | gc line =>
    rw [hsrc] at hm
    cases hm
    change LineMgmt.CountedOff size s.map.lines (pblkUpdateMapGc s.map x.lba (s.rwb.entries pos).cacheline line).lines
    unfold pblkUpdateMapGc
    split
    · split <;> exact .refl _
    · exact .refl _

theorem mapPage_countedOff (hpage : s.PageUnmarked cfg) (h : s.mapPage cfg = some s') :
    LineMgmt.CountedOff size s.map.lines s'.map.lines := by
  obtain ⟨c,taken,ppas,d,l,paddr,-,-,hd,halloc,rfl⟩ := mapPage_effect h
  have hbits := hpage d l paddr hd halloc
  -- the allocation itself marks nothing
  obtain ⟨hinvalid,hlba,hvsc⟩ : l.invalidBitmap = (s.map.lines.line d).invalidBitmap ∧
      l.lbaList = (s.map.lines.line d).lbaList ∧ l.vsc = (s.map.lines.line d).vsc := by
    unfold pblkAllocPage allocPage at halloc
    obtain ⟨⟨l₁,addr₁⟩,h₁,heq⟩ := Option.map_eq_some_iff.mp halloc
    split at h₁
    · cases h₁
    cases h₁
    cases heq
    exact ⟨rfl,rfl,rfl⟩
  have hset : LineMgmt.CountedOff size s.map.lines (s.map.lines.setLine d l) := .setLine (.of_same hinvalid hvsc)
  refine hset.trans (mapSectors_countedOff _ _ _ _ _ _ _ _ _ ?_)
  intro k _ hk
  have hsame : s.map.lines.Unmarked (s.map.lines.setLine d l) := .setLine hinvalid hlba
  rw [(hsame _).1]
  exact hbits k (by omega)

theorem endWBio_countedOff (q : WReq δ) : LineMgmt.CountedOff size s.map.lines (s.endWBio cfg q).map.lines := by
  change LineMgmt.CountedOff size s.map.lines
    ((q.ppas.take q.ctx.nrValid).foldl (fun m a => pblkSyncLine m a.line) s.map.lines)
  generalize s.map.lines = m
  induction q.ppas.take q.ctx.nrValid generalizing m with
  | nil => exact .refl m
  | cons a as ih => exact (LineMgmt.CountedOff.syncLine a.line).trans (ih _)

/-- The line management leaves the marks and the count of line `i` alone, and no page is given out that has a
mark. -/
def Counting (cfg : Config) (i : Nat) (s : Ftl δ) : Event δ → Prop
  | .mapPage => s.PageUnmarked cfg
  | .lines m => (m.line i).invalidBitmap = (s.map.lines.line i).invalidBitmap ∧ (m.line i).vsc = (s.map.lines.line i).vsc
  | _ => True

theorem makeRoom_countedOff (hinv : s.Inv cfg p) {n : Nat} (h : s.makeRoom cfg n = some s') :
    LineMgmt.CountedOff size s.map.lines s'.map.lines := by
  obtain ⟨c,rb,m,hup,-,-,rfl⟩ := makeRoom_effect hinv.ordered.cursors h
  exact updateL2p_countedOff hup

theorem step_countedOff {i : Nat} {e : Event δ} (hinv : s.Inv cfg p) (hcount : s.Counting cfg i e)
    (hs : step cfg s e = some s') (he : ∀ k failed recovery, e ≠ .answer k failed recovery) :
    (s.map.lines.line i).CountedOff size (s'.map.lines.line i) := by
  have hsame : (s.map.lines.line i).CountedOff size (s.map.lines.line i) := .of_same rfl rfl
  cases e with
  | writeUser b =>
    obtain ⟨s₁,xs,acc,hroom,-,-,-,-,rfl⟩ := writeUser_effect hs
    have h₁ : (s.map.lines.line i).CountedOff size (s₁.map.lines.line i) := makeRoom_countedOff hinv hroom i
    change (s.map.lines.line i).CountedOff size
      ((if b.preflush then (s₁.flush cfg b.id b.sectors.length).1 else s₁).map.lines.line i)
    split
    · obtain ⟨rb,flushes,hflush⟩ := flush_eq cfg s₁ b.id b.sectors.length
      rw [hflush]
      exact h₁
    · exact h₁
  | writeGc line lbas data =>
    obtain ⟨s₁,hroom,-,rfl⟩ := writeGc_effect hs
    exact makeRoom_countedOff hinv hroom i
  | insert j => exact insert_countedOff hs i
  | commit =>
    obtain ⟨-,secs,avail,-,-,rfl⟩ := commit_effect hs
    exact hsame
  | read =>
    obtain ⟨pos,secs,count,rb,ts,-,-,rfl⟩ := read_effect hs
    exact hsame
  | readFail k =>
    obtain ⟨pos,secs,count,rb,ts,rb',-,-,-,-,rfl⟩ := readFail_effect hs
    exact hsame
  | giveUp =>
    simp only [step,giveUp] at hs
    split at hs <;> cases hs
    exact hsame
  | mapPage => exact mapPage_countedOff hcount hs i
  | send ok =>
    simp only [step,send] at hs
    split at hs
    · split at hs <;> cases hs
      exact hsame
    · cases hs
  | answer k failed recovery => exact absurd rfl (he k failed recovery)
  | discard slba n =>
    cases hs
    exact discard_countedOff s.map slba n i
  | syncL2p =>
    obtain ⟨⟨rb,m⟩,hup,rfl⟩ := Option.map_eq_some_iff.mp hs
    exact updateL2p_countedOff hup i
  | lines m =>
    cases hs
    exact .of_same hcount.1 hcount.2
  | rates n =>
    obtain ⟨x,-,rfl⟩ := Option.map_eq_some_iff.mp hs
    exact hsame
  | userTimer =>
    cases hs
    exact hsame

theorem reaches_countedOff {i : Nat} (hinv : ∃ p, s.Inv cfg p) (h : Reaches (step cfg) (Counting cfg i) s s') :
    (s.map.lines.line i).CountedOff size (s'.map.lines.line i) := by
  have hrun := h.invariant (fun t => (∃ p, t.Inv cfg p) ∧ (s.map.lines.line i).CountedOff size (t.map.lines.line i))
    ⟨hinv,.of_same rfl rfl⟩ ?_
  · exact hrun.2
  · rintro t e t' ⟨⟨p,hinv⟩,ht⟩ hcount hs
    have hretire : Retirable cfg fun t : Ftl δ => (s.map.lines.line i).CountedOff size (t.map.lines.line i) :=
      ⟨fun _ _ h => h,fun _ _ h => h,fun _ _ h => h,fun _ _ q _ _ h => h.trans (endWBio_countedOff q i)⟩
    obtain ⟨p',-,hinv',ht'⟩ := hinv.step hs (fun he => ht.trans (step_countedOff hinv hcount hs he))
      fun _ _ _ _ => ⟨hretire,ht⟩
    exact ⟨⟨p',hinv'⟩,ht'⟩

end Ftl

/-- Two sectors reach the device, the first is overwritten, and the page of the new one is padded. -/
def paddedRun : List (Event Nat) :=
  [.writeUser ⟨0,0,[10,11],true,false⟩,.insert 0,.insert 0,.commit,.read,.mapPage,.send true,.answer 0 none true,.syncL2p,
    .writeUser ⟨1,0,[12],true,true⟩,.insert 0,.commit,.read,.mapPage]

def paddedStep (s : Ftl Nat) (e : Event Nat) : Option (Ftl Nat) :=
  if mixedCheck ⟨s,fun _ => none,fun _ => none⟩ e then step smallConfig s e else none

theorem paddedRun_isSome : (paddedRun.foldlM paddedStep smallInit).isSome = true := by decide +kernel

def paddedState : Ftl Nat := (paddedRun.foldlM paddedStep smallInit).get paddedRun_isSome

theorem paddedState_reaches : Reaches (step smallConfig) (Ftl.Counting smallConfig 0) smallInit paddedState := by
  refine Reaches.of_foldlM_checked (fun s e h => ?_) (Option.some_get paddedRun_isSome).symm
  have hmarks := keepsMarks_of_mixedCheck _ e h
  cases e with
  | mapPage => exact hmarks
  | lines m => cases h
  | _ => trivial

example : (paddedState.map.lines.line 0).vsc = 6 := by decide +kernel

end Sdssd.Pblk
