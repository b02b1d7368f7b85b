import Sdssd.Pblk.WritePath
import Mathlib.Data.List.Basic

/-!
# The loops over the ring

Each loop over consecutive entries rewrites every one of them once and leaves the others, and all
cursors but its own, as they are.
-/

namespace Sdssd.Pblk

open Framework

variable {δ : Type} {r : RingSize} {cfg : Config}

/-- Where an entry is on its way from the caller to the device. -/
inductive Phase
  | reserved
  | written
  | submitted
  deriving DecidableEq, Repr

def WFlags.phase (f : WFlags) : Option Phase :=
  match f.written, f.submitted, f.writable with
  | false, false, true => some .reserved
  | true, false, false => some .written
  | false, true, false => some .submitted
  | _, _, _ => none

namespace RbEntry

def phase (e : RbEntry δ) : Option Phase := e.wCtx.flags.phase

def sector (e : RbEntry δ) : Taken δ := ⟨e.wCtx.lba,e.data,e.wCtx.flags.iotype⟩

/-- The entry after the write thread has read it. -/
def hand (e : RbEntry δ) : RbEntry δ :=
  { e with wCtx := { e.wCtx with flags := { e.wCtx.flags with flush := false, written := false, submitted := true } } }

/-- The entry after the map has been moved to the device. -/
def clean (e : RbEntry δ) : RbEntry δ :=
  { e with wCtx := { e.wCtx with flags := .writableEntry, ppa := .empty } }

def noBios (e : RbEntry δ) : RbEntry δ := { e with wCtx := { e.wCtx with bios := [] } }

def mapTo (e : RbEntry δ) (a : DevAddr) : RbEntry δ := { e with wCtx := { e.wCtx with ppa := .dev a } }

/-- The entry after the page could not be added to the bio. -/
def drop (e : RbEntry δ) : RbEntry δ :=
  { e with wCtx := { e.wCtx with flags := { e.wCtx.flags with written := false, submitted := true } } }

/-- The entry after a sector has been copied to it. -/
def write (e : RbEntry δ) (x : Sector δ) : RbEntry δ :=
  { e with
    data := x.data
    wCtx := { e.wCtx with lba := x.lba, ppa := .empty, flags := ⟨some x.src.iotype,false,true,false,false⟩ } }

/-- The entry after a flush has been hung on it. -/
def hang (e : RbEntry δ) (bio : Nat) : RbEntry δ :=
  { e with wCtx := { e.wCtx with flags := { e.wCtx.flags with flush := true }, bios := e.wCtx.bios ++ [bio] } }

variable {e : RbEntry δ}

theorem phase_written (h : e.phase = some .written) : e.wCtx.flags.written = true := by
  unfold phase WFlags.phase at h
  split at h <;> simp_all

theorem phase_reserved (h : e.phase = some .reserved) : e.wCtx.flags.writable = true := by
  unfold phase WFlags.phase at h
  split at h <;> simp_all

theorem phase_submitted (h : e.phase = some .submitted) : e.wCtx.flags.submitted = true := by
  unfold phase WFlags.phase at h
  split at h <;> simp_all

theorem not_writable {ph : Phase} (h : e.phase = some ph) (hne : ph ≠ .reserved) : e.wCtx.flags.writable = false := by
  unfold phase WFlags.phase at h
  split at h <;> simp_all

theorem reserved_not_submitted (h : e.phase = some .reserved) (hs : e.wCtx.flags.submitted = true) : False := by
  unfold phase WFlags.phase at h
  split at h <;> simp_all

theorem written_of_flag {ph : Phase} (h : e.phase = some ph) (hw : e.wCtx.flags.written = true) : ph = .written := by
  unfold phase WFlags.phase at h
  split at h <;> simp_all

theorem drop_phase (h : e.phase = some .written) : e.drop.phase = some .submitted := by
  unfold phase WFlags.phase at h
  split at h <;> simp_all [phase,drop,WFlags.phase]

theorem hand_phase (h : e.phase = some .written) : e.hand.phase = some .submitted := by
  unfold phase WFlags.phase at h
  split at h <;> simp_all [phase,hand,WFlags.phase]

@[simp] theorem hand_sector : e.hand.sector = e.sector := rfl

@[simp] theorem drop_sector : e.drop.sector = e.sector := rfl

@[simp] theorem write_phase {x : Sector δ} : (e.write x).phase = some .written := rfl

@[simp] theorem write_sector {x : Sector δ} : (e.write x).sector = ⟨x.lba,x.data,some x.src.iotype⟩ := rfl

@[simp] theorem clean_phase : e.clean.phase = some .reserved := rfl

@[simp] theorem noBios_phase : e.noBios.phase = e.phase := rfl

@[simp] theorem noBios_sector : e.noBios.sector = e.sector := rfl

@[simp] theorem mapTo_phase {a : DevAddr} : (e.mapTo a).phase = e.phase := rfl

@[simp] theorem mapTo_sector {a : DevAddr} : (e.mapTo a).sector = e.sector := rfl

end RbEntry

namespace Rb

/-- The cursors are where they were. -/
structure SameCursors (rb rb' : Rb δ) : Prop where
  mem : rb'.mem = rb.mem
  subm : rb'.subm = rb.subm
  sync : rb'.sync = rb.sync
  l2pUpdate : rb'.l2pUpdate = rb.l2pUpdate

theorem SameCursors.refl (rb : Rb δ) : rb.SameCursors rb := ⟨rfl,rfl,rfl,rfl⟩

theorem SameCursors.trans {a b c : Rb δ} (h : a.SameCursors b) (k : b.SameCursors c) : a.SameCursors c :=
  ⟨k.mem.trans h.mem,k.subm.trans h.subm,k.sync.trans h.sync,k.l2pUpdate.trans h.l2pUpdate⟩

end Rb

variable {rb rb' : Rb δ} {n v pos : Nat}

theorem readEntry_eq_some {t : Taken δ} (h : readEntry rb pos = some (rb',t)) :
    (rb.entries pos).wCtx.flags.written = true ∧ t = (rb.entries pos).sector ∧
      rb'.entries = Function.update rb.entries pos (rb.entries pos).hand ∧ rb.SameCursors rb' := by
  unfold readEntry at h
  dsimp only at h
  split at h
  · rename_i hw
    obtain ⟨rfl,rfl⟩ := Prod.mk.inj (Option.some.inj h)
    exact ⟨hw,rfl,rfl,⟨rfl,rfl,rfl,rfl⟩⟩
  · cases h

theorem readEntryFail_eq_some (h : readEntryFail rb pos = some rb') :
    (rb.entries pos).wCtx.flags.written = true ∧
      rb'.entries = Function.update rb.entries pos (rb.entries pos).drop ∧ rb.SameCursors rb' ∧
      rb'.syncPoint = rb.syncPoint := by
  unfold readEntryFail at h
  dsimp only at h
  split at h
  · rename_i hw
    cases h
    exact ⟨hw,rfl,⟨rfl,rfl,rfl,rfl⟩,rfl⟩
  · cases h

theorem pblkRbWriteEntry_eq_some {x : Sector δ} {line : PpaAddr}
    (h : pblkRbWriteEntry rb x.data x.lba (some x.src.iotype) pos = some (rb',line)) :
    (rb.entries pos).wCtx.flags.writable = true ∧ line = (rb.entries pos).cacheline ∧
      rb' = rb.setEntry pos ((rb.entries pos).write x) := by
  unfold pblkRbWriteEntry at h
  dsimp only at h
  split at h
  · rename_i hw
    obtain ⟨rfl,rfl⟩ := Prod.mk.inj (Option.some.inj h)
    exact ⟨hw,rfl,rfl⟩
  · cases h

/-- A cell behind the one that was just rewritten, within one revolution. -/
private theorem update_ahead {β : Type*} {t : Nat → β} {x : β} {j : Nat} (hj : j + 1 < r.cells) :
    Function.update t (r.wrap v) x (r.wrap (v + 1 + j)) = t (r.wrap (v + 1 + j)) := by
  apply Function.update_of_ne
  intro heq
  have hvj : v + 1 + j = v := RingSize.wrap_inj (l := v) (by omega) (by omega) (Nat.le_refl v) (by omega) heq
  omega

theorem readEntries_spec {ts : List (Taken δ)} (hn : n ≤ r.cells)
    (h : readEntries r n rb (r.wrap v) = some (rb',ts)) :
    r.Swept (fun _ e => e.hand) n v rb.entries rb'.entries ∧ rb.SameCursors rb' ∧ ts.length = n ∧
      ∀ j, j < n → (rb.entries (r.wrap (v + j))).wCtx.flags.written = true ∧
        ts[j]? = some (rb.entries (r.wrap (v + j))).sector := by
  induction n generalizing rb v ts with
  | zero =>
    obtain ⟨rfl,rfl⟩ := Prod.mk.inj (Option.some.inj h)
    exact ⟨.zero,.refl rb,rfl,fun j hj => absurd hj (Nat.not_lt_zero j)⟩
  | succ n ih =>
    rw [readEntries] at h
    cases hread : readEntry rb (r.wrap v) with
    | none => simp [hread] at h
    | some x =>
      obtain ⟨rb₁,t⟩ := x
      obtain ⟨hwritten,rfl,hentries,hsame⟩ := readEntry_eq_some hread
      simp only [hread,RingSize.wrap_add] at h
      obtain ⟨⟨rb₂,ts'⟩,hrest,heq⟩ := Option.map_eq_some_iff.mp h
      obtain ⟨rfl,rfl⟩ := Prod.mk.inj heq
      obtain ⟨hswept,hcur,hlen,hall⟩ := ih (by omega) hrest
      rw [hentries] at hswept
      refine ⟨.cons (by omega) hswept,hsame.trans hcur,by simp [hlen],?_⟩
      intro j hj
      cases j with
      | zero => exact ⟨hwritten,rfl⟩
      | succ j =>
        have hj' := hall j (by omega)
        rw [hentries,update_ahead (by omega)] at hj'
        rw [show v + (j + 1) = v + 1 + j by omega]
        exact hj'

theorem updateL2pEntry_eq_some {m m' : Map} (h : updateL2pEntry cfg rb m = some (rb',m')) :
    (rb.entries rb.l2pUpdate).wCtx.flags.submitted = true ∧
      rb'.entries = Function.update rb.entries rb.l2pUpdate (rb.entries rb.l2pUpdate).clean ∧
      rb'.l2pUpdate = cfg.ring.wrap (rb.l2pUpdate + 1) ∧ rb'.mem = rb.mem ∧ rb'.subm = rb.subm ∧
      rb'.sync = rb.sync := by
  unfold updateL2pEntry at h
  dsimp only at h
  split at h
  · obtain ⟨m₁,_,h⟩ := Option.bind_eq_some_iff.mp h
    obtain ⟨lines,_,h⟩ := Option.bind_eq_some_iff.mp h
    obtain ⟨w,hw,h⟩ := Option.map_eq_some_iff.mp h
    obtain ⟨rfl,rfl⟩ := Prod.mk.inj h
    unfold cleanWctx at hw
    split at hw
    · rename_i hsub
      cases hw
      exact ⟨hsub,rfl,rfl,rfl,rfl,rfl⟩
    · cases hw
  · cases h

theorem updateL2p_spec {m m' : Map} (hn : n ≤ cfg.ring.cells) (hv : rb.l2pUpdate = cfg.ring.wrap v)
    (h : updateL2p cfg n rb m = some (rb',m')) :
    cfg.ring.Swept (fun _ e => e.clean) n v rb.entries rb'.entries ∧
      rb'.l2pUpdate = cfg.ring.wrap (v + n) ∧ rb'.mem = rb.mem ∧ rb'.subm = rb.subm ∧ rb'.sync = rb.sync ∧
      ∀ j, j < n → (rb.entries (cfg.ring.wrap (v + j))).wCtx.flags.submitted = true := by
  induction n generalizing rb v m with
  | zero =>
    obtain ⟨rfl,rfl⟩ := Prod.mk.inj (Option.some.inj h)
    exact ⟨.zero,hv,rfl,rfl,rfl,fun j hj => absurd hj (Nat.not_lt_zero j)⟩
  | succ n ih =>
    rw [updateL2p] at h
    obtain ⟨⟨rb₁,m₁⟩,hentry,hrest⟩ := Option.bind_eq_some_iff.mp h
    obtain ⟨hsub,hentries,hl2p,hmem,hsubm,hsync⟩ := updateL2pEntry_eq_some hentry
    rw [hv] at hsub hentries
    rw [hv,RingSize.wrap_add] at hl2p
    obtain ⟨hswept,hl2p',hmem',hsubm',hsync',hall⟩ := ih (by omega) hl2p hrest
    rw [hentries] at hswept
    refine ⟨.cons (by omega) hswept,by rw [hl2p']; congr 1; omega,hmem'.trans hmem,hsubm'.trans hsubm,
      hsync'.trans hsync,?_⟩
    intro j hj
    cases j with
    | zero => exact hsub
    | succ j =>
      have hj' := hall j (by omega)
      rw [hentries,update_ahead (by omega)] at hj'
      rw [show v + (j + 1) = v + 1 + j by omega]
      exact hj'

private theorem wrap_succ_congr {a b : Nat} (h : r.wrap a = r.wrap b) : r.wrap (a + 1) = r.wrap (b + 1) := by
  rw [← RingSize.wrap_add,h,RingSize.wrap_add]

theorem popBios_spec (rb : Rb δ) (hn : n ≤ r.cells) (hv : r.wrap pos = r.wrap v) :
    r.Swept (fun _ e => e.noBios) n v rb.entries (popBios r n rb pos).1.entries ∧
      rb.SameCursors (popBios r n rb pos).1 ∧
      (popBios r n rb pos).2 = (List.range n).flatMap fun j => (rb.entries (r.wrap (v + j))).wCtx.bios := by
  induction n generalizing rb v pos with
  | zero => exact ⟨.zero,.refl rb,rfl⟩
  | succ n ih =>
    obtain ⟨hswept,hcur,hbios⟩ := @ih (v + 1) (pos + 1) (rb.setEntry (r.wrap v) (rb.entries (r.wrap v)).noBios)
      (by omega) (wrap_succ_congr hv)
    have hset : rb.SameCursors (rb.setEntry (r.wrap v) (rb.entries (r.wrap v)).noBios) := ⟨rfl,rfl,rfl,rfl⟩
    rw [popBios,hv]
    refine ⟨.cons (by omega) hswept,hset.trans hcur,?_⟩
    rw [List.range_succ_eq_map,List.flatMap_cons,List.flatMap_map]
    refine congrArg₂ _ rfl (hbios.trans ?_)
    apply List.flatMap_congr
    intro j hj
    have hjn := List.mem_range.mp hj
    rw [show v + (j + 1) = v + 1 + j by omega]
    exact congrArg (fun e => e.wCtx.bios) (update_ahead (r := r) (t := rb.entries) (j := j) (by omega))

/-- Sectors of padding touch no entry. -/
theorem mapSectors_padding {sentry mapSecs line paddr i : Nat} {lines : LineMgmt} (hi : mapSecs ≤ i) :
    (mapSectors r sentry mapSecs line paddr n i rb lines).1 = rb := by
  induction n generalizing i lines with
  | zero => rfl
  | succ n ih =>
    have hpad : ¬ i < mapSecs := Nat.not_lt.mpr hi
    rw [mapSectors]
    simp only [mapSector,hpad,if_false]
    exact ih (Nat.le_succ_of_le hi)

theorem mapSectors_spec {sentry mapSecs line paddr i : Nat} {lines : LineMgmt}
    (hv : r.wrap sentry = r.wrap v) (hn : mapSecs ≤ r.cells) (hi : i ≤ mapSecs) (hsecs : mapSecs ≤ n + i) :
    r.Swept (fun k e => e.mapTo ⟨line,paddr + (k - v)⟩) (mapSecs - i) (v + i) rb.entries
        (mapSectors r sentry mapSecs line paddr n i rb lines).1.entries ∧
      rb.SameCursors (mapSectors r sentry mapSecs line paddr n i rb lines).1 := by
  induction n generalizing i rb lines with
  | zero =>
    have hnone : mapSecs - i = 0 := by omega
    rw [hnone]
    exact ⟨.zero,.refl rb⟩
  | succ n ih =>
    rcases Nat.eq_or_lt_of_le hi with rfl | hlt
    · rw [mapSectors_padding (Nat.le_refl i),Nat.sub_self]
      exact ⟨.zero,.refl rb⟩
    · have hpos : r.wrap (sentry + i) = r.wrap (v + i) := by
        rw [← RingSize.wrap_add,hv,RingSize.wrap_add]
      obtain ⟨m,hm⟩ : ∃ m, mapSecs - i = m + 1 := ⟨mapSecs - i - 1,by omega⟩
      have hm' : mapSecs - (i + 1) = m := by omega
      rw [mapSectors]
      simp only [mapSector,hlt,if_true,hpos]
      let rb₁ := rb.setEntry (r.wrap (v + i)) ((rb.entries (r.wrap (v + i))).mapTo ⟨line,paddr + i⟩)
      obtain ⟨hswept,hcur⟩ := @ih rb₁ (i + 1) _ (by omega) (by omega)
      have hset : rb.SameCursors rb₁ := ⟨rfl,rfl,rfl,rfl⟩
      refine ⟨?_,hset.trans hcur⟩
      rw [hm]
      rw [hm'] at hswept
      apply RingSize.Swept.cons (by omega)
      rw [Nat.add_sub_cancel_left]
      exact hswept

/-- The buffer with the phases, the sectors and the cursors it had. -/
structure Rb.SameSectors (rb rb' : Rb δ) : Prop where
  phase : ∀ pos, (rb'.entries pos).phase = (rb.entries pos).phase
  sector : ∀ pos, (rb'.entries pos).sector = (rb.entries pos).sector
  cursors : rb.SameCursors rb'

namespace Rb.SameSectors

theorem refl (rb : Rb δ) : rb.SameSectors rb := ⟨fun _ => rfl,fun _ => rfl,.refl rb⟩

theorem trans {a b c : Rb δ} (h : a.SameSectors b) (k : b.SameSectors c) : a.SameSectors c :=
  ⟨fun pos => (k.phase pos).trans (h.phase pos),fun pos => (k.sector pos).trans (h.sector pos),
    h.cursors.trans k.cursors⟩

theorem setEntry {e : RbEntry δ} (hphase : e.phase = (rb.entries pos).phase)
    (hsector : e.sector = (rb.entries pos).sector) : rb.SameSectors (rb.setEntry pos e) := by
  refine ⟨?_,?_,⟨rfl,rfl,rfl,rfl⟩⟩ <;> intro q <;> rw [entries_setEntry] <;> split
  · rename_i heq
    rw [heq,hphase]
  · rfl
  · rename_i heq
    rw [heq,hsector]
  · rfl

end Rb.SameSectors

theorem pblkRbSyncPointSet_sameSectors (r : RingSize) (rb : Rb δ) (bio pos : Nat) :
    rb.SameSectors (pblkRbSyncPointSet r rb bio pos).1 := by
  unfold pblkRbSyncPointSet
  split
  · exact .refl rb
  · let last := if pos = 0 then r.cells - 1 else pos - 1
    have hset : rb.SameSectors (rb.setEntry last ((rb.entries last).hang bio)) := .setEntry rfl rfl
    exact ⟨hset.phase,hset.sector,⟨rfl,rfl,rfl,rfl⟩⟩

/-! ## Loop rules: what one round keeps, the loop keeps -/

theorem readEntries_keeps (P : Rb δ → Prop)
    (hround : ∀ a pos b t, P a → readEntry a pos = some (b,t) → P b) {ts : List (Taken δ)} (hrb : P rb)
    (h : readEntries r n rb pos = some (rb',ts)) : P rb' := by
  induction n generalizing rb pos ts with
  | zero =>
    obtain ⟨rfl,-⟩ := Prod.mk.inj (Option.some.inj h)
    exact hrb
  | succ n ih =>
    rw [readEntries] at h
    cases hread : readEntry rb pos with
    | none => simp [hread] at h
    | some x =>
      simp only [hread] at h
      obtain ⟨⟨rb₂,ts'⟩,hrest,heq⟩ := Option.map_eq_some_iff.mp h
      obtain ⟨rfl,-⟩ := Prod.mk.inj heq
      exact ih (hround rb pos x.1 x.2 hrb hread) hrest

theorem updateL2p_keeps (P : Rb δ → Map → Prop)
    (hround : ∀ a m b m', P a m → updateL2pEntry cfg a m = some (b,m') → P b m') {m m' : Map} (hrb : P rb m)
    (h : updateL2p cfg n rb m = some (rb',m')) : P rb' m' := by
  induction n generalizing rb m with
  | zero =>
    obtain ⟨rfl,rfl⟩ := Prod.mk.inj (Option.some.inj h)
    exact hrb
  | succ n ih =>
    rw [updateL2p] at h
    obtain ⟨⟨rb₁,m₁⟩,hentry,hrest⟩ := Option.bind_eq_some_iff.mp h
    exact ih (hround rb m rb₁ m₁ hrb hentry) hrest

theorem popBios_keeps (P : Rb δ → Prop)
    (hround : ∀ a pos, P a → P (a.setEntry (r.wrap pos) (a.entries (r.wrap pos)).noBios)) (hrb : P rb) :
    P (popBios r n rb pos).1 := by
  induction n generalizing rb pos with
  | zero => exact hrb
  | succ n ih => exact ih (hround rb pos hrb)

theorem mapSectors_keeps (P : Rb δ → LineMgmt → Prop) {sentry mapSecs line paddr i : Nat} {lines : LineMgmt}
    (hround : ∀ a l i, P a l → P (mapSector r a l sentry mapSecs i ⟨line,paddr + i⟩).1
      (mapSector r a l sentry mapSecs i ⟨line,paddr + i⟩).2) (hrb : P rb lines) :
    P (mapSectors r sentry mapSecs line paddr n i rb lines).1 (mapSectors r sentry mapSecs line paddr n i rb lines).2 := by
  induction n generalizing i rb lines with
  | zero => exact hrb
  | succ n ih =>
    rw [mapSectors]
    exact ih (hround rb lines i hrb)

theorem mapSector_fst (r : RingSize) (rb : Rb δ) {sentry mapSecs i : Nat} {a : DevAddr} {lines : LineMgmt} :
    (mapSector r rb lines sentry mapSecs i a).1 = rb ∨
      (mapSector r rb lines sentry mapSecs i a).1 =
        rb.setEntry (r.wrap (sentry + i)) ((rb.entries (r.wrap (sentry + i))).mapTo a) := by
  unfold mapSector
  dsimp only
  split
  · exact Or.inr rfl
  · exact Or.inl rfl

theorem popBios_sameSectors : rb.SameSectors (popBios r n rb pos).1 := by
  refine popBios_keeps (fun a => rb.SameSectors a) ?_ (.refl rb)
  intro a q ha
  exact ha.trans (.setEntry rfl rfl)

theorem mapSectors_sameSectors {sentry mapSecs line paddr i : Nat} {lines : LineMgmt} :
    rb.SameSectors (mapSectors r sentry mapSecs line paddr n i rb lines).1 := by
  refine mapSectors_keeps (fun a _ => rb.SameSectors a) ?_ (.refl rb)
  intro a l k ha
  rcases mapSector_fst r a with heq | heq <;> rw [heq]
  · exact ha
  · exact ha.trans (.setEntry rfl rfl)

end Sdssd.Pblk
