import Sdssd.Pblk.Collect

/-!
# No sector in use is marked invalid

A sector is marked when its lba is written or discarded, when it was written for an entry that the map does
not name any more, or when it pads a page. None of them is a sector the map or the buffer still leads to, and
the lba list of the line names the lba of every sector in use. So the collection of a line comes to all of
them.
-/

namespace Sdssd.Pblk

open Framework

variable {δ : Type} {cfg : Config}

namespace LineMgmt

def invalidAt (m : LineMgmt) (a : DevAddr) : Bool := (m.line a.line).invalidBitmap a.paddr

def lbaAt (m : LineMgmt) (a : DevAddr) : Option Nat := (m.line a.line).lbaList a.paddr

/-- Only sectors in `gone` were marked, and the lba lists are the same. -/
structure Marked (m m' : LineMgmt) (gone : DevAddr → Prop) : Prop where
  invalid : ∀ a, m'.invalidAt a = true → m.invalidAt a = true ∨ gone a
  lba : ∀ a, m'.lbaAt a = m.lbaAt a

/-- No sector was marked. -/
def Unmarked (m m' : LineMgmt) : Prop := ∀ a, m'.invalidAt a = m.invalidAt a ∧ m'.lbaAt a = m.lbaAt a

variable {m m' m'' : LineMgmt} {gone : DevAddr → Prop}

theorem Unmarked.refl (m : LineMgmt) : m.Unmarked m := fun _ => ⟨rfl,rfl⟩

theorem Unmarked.trans (h : m.Unmarked m') (h' : m'.Unmarked m'') : m.Unmarked m'' :=
  fun a => ⟨(h' a).1.trans (h a).1,(h' a).2.trans (h a).2⟩

theorem Unmarked.marked (h : m.Unmarked m') : m.Marked m' gone :=
  ⟨fun a ha => Or.inl ((h a).1 ▸ ha),fun a => (h a).2⟩

theorem Marked.trans_unmarked (h : m.Marked m' gone) (h' : m'.Unmarked m'') : m.Marked m'' gone :=
  ⟨fun a ha => h.invalid a ((h' a).1 ▸ ha),fun a => (h' a).2.trans (h.lba a)⟩

theorem Unmarked.setLine {i : Nat} {l : Line} (hinvalid : l.invalidBitmap = (m.line i).invalidBitmap)
    (hlba : l.lbaList = (m.line i).lbaList) : m.Unmarked (m.setLine i l) := by
  intro a
  have hline : (m.setLine i l).line a.line = if a.line = i then l else m.line a.line :=
    Function.update_apply m.line i l a.line
  rw [invalidAt,invalidAt,lbaAt,lbaAt,hline]
  split
  · rename_i heq
    rw [hinvalid,hlba,heq]
    exact ⟨rfl,rfl⟩
  · exact ⟨rfl,rfl⟩

theorem Unmarked.syncLine (i : Nat) : m.Unmarked (pblkSyncLine m i) := by
  have hset : m.Unmarked (m.setLine i { m.line i with leftSsecs := (m.line i).leftSsecs - 1 }) := .setLine rfl rfl
  unfold pblkSyncLine
  dsimp only
  split
  · exact fun a => hset a
  · exact hset

theorem Unmarked.krefPutLocked {i : Nat} (h : krefPutLocked m i = some m') : m.Unmarked m' := by
  unfold Pblk.krefPutLocked at h
  split at h
  · cases h
  · cases h
    exact .setLine rfl rfl

theorem gcList_bits {l l' : Line} {k : Option LineList} (h : pblkLineGcList cfg l = (l',k)) :
    l'.invalidBitmap = l.invalidBitmap ∧ l'.lbaList = l.lbaList := by
  have hfst : l' = (pblkLineGcList cfg l).1 := by rw [h]
  rw [hfst]
  unfold pblkLineGcList
  dsimp only
  split_ifs <;> exact ⟨rfl,rfl⟩

/-- A line of which only the sector `a` was changed. -/
theorem at_setLine_of_ne {a b : DevAddr} (hne : b ≠ a) {l : Line}
    (hinvalid : ∀ q, q ≠ a.paddr → l.invalidBitmap q = (m.line a.line).invalidBitmap q)
    (hlba : ∀ q, q ≠ a.paddr → l.lbaList q = (m.line a.line).lbaList q) :
    (m.setLine a.line l).invalidAt b = m.invalidAt b ∧ (m.setLine a.line l).lbaAt b = m.lbaAt b := by
  have hline : (m.setLine a.line l).line b.line = if b.line = a.line then l else m.line b.line :=
    Function.update_apply m.line a.line l b.line
  rw [invalidAt,invalidAt,lbaAt,lbaAt,hline]
  split
  · rename_i heq
    have hpaddr : b.paddr ≠ a.paddr := by
      intro hp
      obtain ⟨bl,bp⟩ := b
      obtain ⟨al,ap⟩ := a
      dsimp only at heq hp
      exact hne (by rw [heq,hp])
    rw [hinvalid _ hpaddr,hlba _ hpaddr,heq]
    exact ⟨rfl,rfl⟩
  · exact ⟨rfl,rfl⟩

theorem Marked.setLine {a : DevAddr} {l : Line}
    (hinvalid : l.invalidBitmap = Function.update (m.line a.line).invalidBitmap a.paddr true)
    (hlba : l.lbaList = (m.line a.line).lbaList) : m.Marked (m.setLine a.line l) (· = a) := by
  have hother (b : DevAddr) (hne : b ≠ a) := at_setLine_of_ne (m := m) hne
    (fun q hq => by rw [hinvalid]; exact Function.update_of_ne hq ..) (fun q _ => congrFun hlba q)
  constructor
  · intro b hb
    by_cases hne : b = a
    · exact Or.inr hne
    · rw [(hother b hne).1] at hb
      exact Or.inl hb
  · intro b
    by_cases hne : b = a
    · subst hne
      have hline : (m.setLine b.line l).line b.line = l := Function.update_self ..
      rw [lbaAt,lbaAt,hline,hlba]
    · exact (hother b hne).2

theorem Marked.invalidate {a : DevAddr} : m.Marked (pblkPageInvalidate cfg m a) (· = a) := by
  unfold pblkPageInvalidate
  dsimp only
  split
  · exact (Unmarked.refl m).marked
  split
  · exact (Unmarked.refl m).marked
  split
  · split
    · rename_i l k heq
      obtain ⟨hinvalid,hlba⟩ := gcList_bits heq
      have hset : m.Marked (m.setLine a.line l) (· = a) := .setLine hinvalid hlba
      exact ⟨hset.invalid,hset.lba⟩
    · rename_i l heq
      obtain ⟨hinvalid,hlba⟩ := gcList_bits heq
      exact .setLine hinvalid hlba
  · exact .setLine rfl rfl

theorem padInvalidate_of_ne {a b : DevAddr} (hne : b ≠ a) :
    (pblkPagePadInvalidate m a).invalidAt b = m.invalidAt b ∧ (pblkPagePadInvalidate m a).lbaAt b = m.lbaAt b := by
  unfold pblkPagePadInvalidate
  dsimp only
  have hset := at_setLine_of_ne (m := m) hne
    (l := { m.line a.line with
      invalidBitmap := Function.update (m.line a.line).invalidBitmap a.paddr true
      vsc := decU32 (m.line a.line).vsc })
    (fun q hq => Function.update_of_ne hq ..) (fun _ _ => rfl)
  have hsync := Unmarked.syncLine a.line (m := m.setLine a.line { m.line a.line with
      invalidBitmap := Function.update (m.line a.line).invalidBitmap a.paddr true
      vsc := decU32 (m.line a.line).vsc }) b
  exact ⟨hsync.1.trans hset.1,hsync.2.trans hset.2⟩

end LineMgmt

theorem Map.invalidate_marked {m : Map} {ppa : PpaAddr} :
    m.lines.Marked (m.invalidate cfg ppa).lines fun a => ppa = .dev a := by
  cases ppa with
  | empty => exact (LineMgmt.Unmarked.refl _).marked
  | cacheline pos => exact (LineMgmt.Unmarked.refl _).marked
  | dev a =>
    have hset : m.lines.Marked (pblkPageInvalidate cfg m.lines a) (· = a) := .invalidate
    exact ⟨fun b hb => (hset.invalid b hb).imp_right fun heq => by rw [heq],hset.lba⟩

namespace Ftl

variable {content : Nat → Option δ} {media : DevAddr → Option (Nat × δ)} {s s' : Ftl δ} {p : Nat}

/-- A sector the map or an entry leads to is not marked, and the lba list of its line has its lba. -/
structure Live (cfg : Config) (s : Ftl δ) : Prop where
  mapped : ∀ lba a, s.map.transMap lba = .dev a → s.map.lines.invalidAt a = false ∧ s.map.lines.lbaAt a = some lba
  entry : ∀ i a, s.MappedAt cfg i a →
    s.map.lines.invalidAt a = false ∧ s.map.lines.lbaAt a = some (s.slot cfg i).wCtx.lba

theorem Live.of_used (h : s.Live cfg) {a : DevAddr} (hused : ¬s.Unused cfg a) : s.map.lines.invalidAt a = false := by
  by_contra hmark
  refine hused ⟨?_,?_⟩
  · intro lba hpos
    exact hmark (h.mapped lba a hpos).1
  · intro i hi
    exact hmark (h.entry i a hi).1

/-- Steps that bring no sector into use and mark only sectors that are not in use any more. -/
theorem Live.fewer (h : s.Live cfg) (hf : Fewer cfg s s') {gone : DevAddr → Prop}
    (hm : s.map.lines.Marked s'.map.lines gone) (hgone : ∀ a, gone a → s'.Unused cfg a) : s'.Live cfg := by
  have hclear : ∀ a, s.map.lines.invalidAt a = false → ¬s'.Unused cfg a → s'.map.lines.invalidAt a = false := by
    intro a hold hused
    cases hnew : s'.map.lines.invalidAt a with
    | false => rfl
    | true =>
      rcases hm.invalid a hnew with hset | hset
      · rw [hold] at hset
        cases hset
      · exact absurd (hgone a hset) hused
  constructor
  · intro lba a hpos
    have hold : s.map.lines.invalidAt a = false ∧ s.map.lines.lbaAt a = some lba := by
      rcases hf.dev lba a hpos with hold | ⟨i,hi,rfl,-⟩
      · exact h.mapped lba a hold
      · exact h.entry i a hi
    exact ⟨hclear a hold.1 fun hu => hu.1 lba hpos,(hm.lba a).trans hold.2⟩
  · intro i a hi
    obtain ⟨hold,hlba⟩ := h.entry i a (hf.mapped i a hi)
    refine ⟨hclear a hold fun hu => hu.2 i hi,?_⟩
    rw [hm.lba a,hf.lba i a hi]
    exact hlba

theorem Live.quiet (h : s.Live cfg) (ha : s.Addresses cfg) (hq : Quiet cfg s s')
    (hm : s.map.lines.Unmarked s'.map.lines) : s'.Live cfg := by
  have hnone : s.map.lines.Marked s'.map.lines fun _ => False := hm.marked
  exact h.fewer (hq.fewer ha) hnone fun _ hf => hf.elim

/-- Two lbas do not share a sector. -/
theorem Faithful.dev_inj (h : s.Faithful cfg content media) {lba lba' : Nat} {a : DevAddr}
    (hpos : s.map.transMap lba = .dev a) (hpos' : s.map.transMap lba' = .dev a) : lba = lba' := by
  obtain ⟨v,hv,-⟩ := h.mapped lba a hpos
  obtain ⟨v',hv',-⟩ := h.mapped lba' a hpos'
  cases hv.symm.trans hv'
  rfl

/-! ## The map moves to the device -/

theorem updateL2pEntry_marked {rb rb' : Rb δ} {m m' : Map} (h : updateL2pEntry cfg rb m = some (rb',m')) {a : DevAddr}
    (ha : (rb.entries rb.l2pUpdate).wCtx.ppa = .dev a) : m.lines.Marked m'.lines fun b => b = a ∧
      m.transMap (rb.entries rb.l2pUpdate).wCtx.lba ≠ (rb.entries rb.l2pUpdate).cacheline := by
  unfold updateL2pEntry at h
  dsimp only at h
  rw [ha] at h
  obtain ⟨m₁,hm₁,h⟩ := Option.bind_eq_some_iff.mp h
  obtain ⟨lines,hlines,h⟩ := Option.bind_eq_some_iff.mp h
  obtain ⟨w,-,h⟩ := Option.map_eq_some_iff.mp h
  obtain ⟨-,rfl⟩ := Prod.mk.inj h
  have hput := LineMgmt.Unmarked.krefPutLocked hlines
  unfold pblkUpdateMapDev at hm₁
  split at hm₁
  · split at hm₁
    · rename_i hmoved
      cases hm₁
      have hset : m.lines.Marked (pblkPageInvalidate cfg m.lines a) (· = a) := .invalidate
      refine LineMgmt.Marked.trans_unmarked ⟨?_,hset.lba⟩ hput
      intro b hb
      exact (hset.invalid b hb).imp_right fun heq => ⟨heq,hmoved.1⟩
    · cases hm₁
      exact hput.marked
  · cases hm₁

theorem Live.releaseOne (h : s.Live cfg) (hc : s.Coherent cfg content media) (hinv : s.Inv cfg p)
    (hlt : s.marks.l2p < s.marks.sync) {rb : Rb δ} {m : Map} (hup : updateL2pEntry cfg s.rwb s.map = some (rb,m))
    (hs' : s' = { s with rwb := rb, map := m, marks := { s.marks with l2p := s.marks.l2p + 1 } }) : s'.Live cfg := by
  subst hs'
  obtain ⟨a,hclean,-⟩ := hc.cleaned hinv hlt hup
  have hl2p : s.rwb.l2pUpdate = cfg.ring.wrap s.marks.l2p := hinv.ordered.cursors.l2p_eq
  have hppa : (s.rwb.entries s.rwb.l2pUpdate).wCtx.ppa = .dev a := by
    rw [hl2p]
    exact hclean.mapped.2.2.2
  refine h.fewer hclean.fewer (updateL2pEntry_marked hup hppa) ?_
  rintro b ⟨rfl,hstale⟩
  rw [hl2p,hc.addresses.cacheline] at hstale
  constructor
  · intro lba hpos
    rcases hclean.of_dev hpos with hold | ⟨-,hlba,hcached⟩
    · exact hc.addresses.free _ b lba hclean.mapped hold
    · rw [hlba] at hcached
      exact hstale hcached
  · intro i hi
    obtain ⟨hold,hne⟩ := hclean.of_mappedAt hi
    exact hne (hc.addresses.inj i _ b hold hclean.mapped)

theorem Live.release (h : s.Live cfg) (hc : s.Coherent cfg content media) (hinv : s.Inv cfg p) {c : Nat} {rb : Rb δ}
    {m : Map} (hle : s.marks.l2p + c ≤ s.marks.sync) (hup : updateL2p cfg c s.rwb s.map = some (rb,m))
    (hs' : s' = { s with rwb := rb, map := m, marks := { s.marks with l2p := s.marks.l2p + c } }) : s'.Live cfg := by
  have hboth := hinv.release_rule (fun t => t.Coherent cfg content media ∧ t.Live cfg) ?_ ⟨hc,h⟩ hle hup hs'
  · exact hboth.2
  · intro t t' rb m hinv ht hlt hentry ht'
    exact ⟨(ht.1.releaseOne hinv hlt hentry ht').2,ht.2.releaseOne ht.1 hinv hlt hentry ht'⟩

/-! ## Writes and discards -/

/-- The sector of an lba that is written or discarded is not in use any more. -/
theorem Coherent.unused_of_moved (hc : s.Coherent cfg content media) (hf : Fewer cfg s s') {lba : Nat}
    (hlba : ∀ a, s'.map.transMap lba ≠ .dev a) {a : DevAddr} (hpos : s.map.transMap lba = .dev a) : s'.Unused cfg a := by
  constructor
  · intro lba' hpos'
    rcases hf.dev lba' a hpos' with hold | ⟨i,hi,-,-⟩
    · obtain rfl := hc.faithful.dev_inj hold hpos
      exact hlba a hpos'
    · exact hc.addresses.free i a lba hi hpos
  · intro i hi
    exact hc.addresses.free i a lba (hf.mapped i a hi) hpos

theorem Live.discard (h : s.Live cfg) (hc : s.Coherent cfg content media) (slba n : Nat) :
    ({ s with map := pblkInvalidateRange cfg s.map slba n } : Ftl δ).Live cfg := by
  induction n generalizing s content slba with
  | zero => exact h
  | succ n ih =>
    have hf : Fewer cfg s { s with map := (s.map.invalidate cfg (s.map.transMap slba)).set slba .empty } :=
      .discard s slba 1
    have hmarked : s.map.lines.Marked ((s.map.invalidate cfg (s.map.transMap slba)).set slba .empty).lines
        fun a => s.map.transMap slba = .dev a := Map.invalidate_marked
    have hlive := h.fewer hf hmarked ?_
    · exact ih hlive (hc.discard slba 1) (slba + 1)
    · intro a hpos
      apply hc.unused_of_moved hf _ hpos
      intro b hb
      have hempty : ((s.map.invalidate cfg (s.map.transMap slba)).set slba .empty).transMap slba = .empty :=
        Function.update_self ..
      cases hempty.symm.trans hb

theorem Live.insert (h : s.Live cfg) (hc : s.Coherent cfg content media) (hord : s.Ordered cfg p) {j : Nat}
    (hi : s.insert cfg j = some s') : s'.Live cfg := by
  obtain ⟨-,-,-,hf,-⟩ := hc.insert hord hi
  obtain ⟨pos,x,m,-,-,hm,rfl⟩ := insert_effect hi
  rw [hc.addresses.cacheline] at hm
  cases hsrc : x.src with
  | user =>
    rw [hsrc] at hm
    dsimp only at hm
    unfold pblkUpdateMapCache at hm
    split at hm
    · cases hm
      have hmarked : s.map.lines.Marked ((s.map.invalidate cfg (s.map.transMap x.lba)).set x.lba (.cacheline pos)).lines
          fun a => s.map.transMap x.lba = .dev a := Map.invalidate_marked
      refine h.fewer hf hmarked ?_
      intro a hpos
      apply hc.unused_of_moved hf _ hpos
      intro b hb
      have hcached : ((s.map.invalidate cfg (s.map.transMap x.lba)).set x.lba (.cacheline pos)).transMap x.lba =
        .cacheline pos := Function.update_self ..
      cases hcached.symm.trans hb
    · cases hm
  | gc line =>
    rw [hsrc] at hm
    cases hm
    have hlines : (pblkUpdateMapGc s.map x.lba (.cacheline pos) line).lines = s.map.lines := by
      unfold pblkUpdateMapGc
      split
      · split <;> rfl
      · rfl
    have hnone : s.map.lines.Marked (pblkUpdateMapGc s.map x.lba (.cacheline pos) line).lines fun _ => False := by
      rw [hlines]
      exact (LineMgmt.Unmarked.refl _).marked
    exact h.fewer hf hnone fun _ hfalse => hfalse.elim

end Ftl

/-! ## Pages -/

section Pages

variable (r : RingSize) (rb : Rb δ) (lines : LineMgmt) (sentry mapSecs : Nat)

/-- The lines after one sector: the others are as they were, and a sector with data has its lba. -/
theorem mapSector_lines (i : Nat) (a : DevAddr) :
    (∀ b, b ≠ a → (mapSector r rb lines sentry mapSecs i a).2.invalidAt b = lines.invalidAt b ∧
      (mapSector r rb lines sentry mapSecs i a).2.lbaAt b = lines.lbaAt b) ∧
    (i < mapSecs → (mapSector r rb lines sentry mapSecs i a).2.invalidAt a = lines.invalidAt a ∧
      (mapSector r rb lines sentry mapSecs i a).2.lbaAt a = some (rb.entries (r.wrap (sentry + i))).wCtx.lba) := by
  have hget : lines.Unmarked (krefGet lines a.line) := .setLine rfl rfl
  have hline (m : LineMgmt) (l : Line) : (m.setLine a.line l).line a.line = l := Function.update_self ..
  unfold mapSector
  dsimp only
  constructor
  · intro b hne
    have hlba (x : Option Nat) := LineMgmt.at_setLine_of_ne (m := krefGet lines a.line) hne
      (l := { (krefGet lines a.line).line a.line with
        lbaList := Function.update ((krefGet lines a.line).line a.line).lbaList a.paddr x })
      (fun _ _ => rfl) (fun q hq => Function.update_of_ne hq ..)
    split
    · obtain ⟨hinv,hl⟩ := hlba (some (rb.entries (r.wrap (sentry + i))).wCtx.lba)
      exact ⟨hinv.trans (hget b).1,hl.trans (hget b).2⟩
    · obtain ⟨hinv,hl⟩ := hlba none
      obtain ⟨hpadinv,hpadl⟩ := LineMgmt.padInvalidate_of_ne (m := (krefGet lines a.line).setLine a.line
        { (krefGet lines a.line).line a.line with
          lbaList := Function.update ((krefGet lines a.line).line a.line).lbaList a.paddr none }) hne
      exact ⟨(hpadinv.trans hinv).trans (hget b).1,(hpadl.trans hl).trans (hget b).2⟩
  · intro hi
    rw [if_pos hi]
    refine ⟨?_,?_⟩
    · rw [← (hget a).1,LineMgmt.invalidAt,hline]
      rfl
    · rw [LineMgmt.lbaAt,hline]
      exact Function.update_self ..

theorem mapSectors_lines (line paddr n i : Nat) :
    (∀ b, (∀ k, i ≤ k → k < i + n → b ≠ ⟨line,paddr + k⟩) →
      (mapSectors r sentry mapSecs line paddr n i rb lines).2.invalidAt b = lines.invalidAt b ∧
      (mapSectors r sentry mapSecs line paddr n i rb lines).2.lbaAt b = lines.lbaAt b) ∧
    (∀ k, i ≤ k → k < i + n → k < mapSecs →
      (mapSectors r sentry mapSecs line paddr n i rb lines).2.invalidAt ⟨line,paddr + k⟩ =
        lines.invalidAt ⟨line,paddr + k⟩ ∧
      (mapSectors r sentry mapSecs line paddr n i rb lines).2.lbaAt ⟨line,paddr + k⟩ =
        some (rb.entries (r.wrap (sentry + k))).wCtx.lba) := by
  induction n generalizing i rb lines with
  | zero => exact ⟨fun _ _ => ⟨rfl,rfl⟩,fun k hk hk' => by omega⟩
  | succ n ih =>
    rw [mapSectors]
    obtain ⟨hother,hself⟩ := mapSector_lines r rb lines sentry mapSecs i ⟨line,paddr + i⟩
    have hlba (pos : Nat) : ((mapSector r rb lines sentry mapSecs i ⟨line,paddr + i⟩).1.entries pos).wCtx.lba =
        (rb.entries pos).wCtx.lba := by
      have hfst : (mapSector r rb lines sentry mapSecs i ⟨line,paddr + i⟩).1 = rb ∨ _ := mapSector_fst r rb
      rcases hfst with heq | heq <;> rw [heq]
      rw [Rb.entries_setEntry]
      split
      · rename_i hpos
        rw [hpos]
        rfl
      · rfl
    generalize mapSector r rb lines sentry mapSecs i ⟨line,paddr + i⟩ = x at *
    obtain ⟨hout,hin⟩ := ih x.1 x.2 (i + 1)
    constructor
    · intro b hb
      obtain ⟨hinv,hl⟩ := hout b fun k hk hk' => hb k (by omega) (by omega)
      obtain ⟨hinv',hl'⟩ := hother b (hb i (Nat.le_refl i) (by omega))
      exact ⟨hinv.trans hinv',hl.trans hl'⟩
    · intro k hk hk' hmap
      have hne (j : Nat) (hj : k ≠ j) : (⟨line,paddr + k⟩ : DevAddr) ≠ ⟨line,paddr + j⟩ := by
        intro heq
        have := congrArg DevAddr.paddr heq
        dsimp only at this
        omega
      by_cases hki : k = i
      · subst hki
        obtain ⟨hinv,hl⟩ := hout ⟨line,paddr + k⟩ fun j hj hj' => hne j (by omega)
        obtain ⟨hinv',hl'⟩ := hself hmap
        exact ⟨hinv.trans hinv',hl.trans hl'⟩
      · obtain ⟨hinv,hl⟩ := hin k (by omega) (by omega) hmap
        obtain ⟨hinv',-⟩ := hother ⟨line,paddr + k⟩ (hne i hki)
        refine ⟨hinv.trans hinv',?_⟩
        rw [hl,hlba]

end Pages

namespace Ftl

variable {content : Nat → Option δ} {media : DevAddr → Option (Nat × δ)} {s s' : Ftl δ} {p : Nat}

/-- The next page of the open line is not marked. -/
def PageUnmarked (cfg : Config) (s : Ftl δ) : Prop :=
  ∀ d l addr, s.map.lines.dataLine = some d →
    pblkAllocPage cfg (s.map.lines.line d) cfg.minWritePgs = some (l,addr) →
    ∀ t, t < cfg.minWritePgs → s.map.lines.invalidAt ⟨d,addr + t⟩ = false

theorem Live.mapPage (h : s.Live cfg) (hc : s.Coherent cfg content media) (hord : s.Ordered cfg p)
    (hroom : ∀ d, s.map.lines.dataLine = some d → (s.map.lines.line d).HasRoom cfg) (hpage : s.PageUnmarked cfg)
    (hm : s.mapPage cfg = some s') : s'.Live cfg := by
  obtain ⟨c,taken,ppas,d,l,addr,n,-,-,hn,halloc,-,hlines,hsentry,hplaced⟩ := hc.placed hord hroom hm
  have hd := hplaced.open_line
  have hle : n ≤ cfg.minWritePgs := by
    rw [hn]
    exact Nat.min_le_left _ _
  obtain ⟨hfree,-,-⟩ := pblkAllocPage_aligned (hc.addresses.aligned d hd) (hroom d hd) halloc
  -- the allocation itself marks nothing
  have hset : s.map.lines.Unmarked (s.map.lines.setLine d l) := by
    unfold pblkAllocPage allocPage at halloc
    obtain ⟨⟨l₁,addr₁⟩,h₁,heq⟩ := Option.map_eq_some_iff.mp halloc
    split at h₁
    · cases h₁
    cases h₁
    cases heq
    exact .setLine rfl rfl
  obtain ⟨hout,hin⟩ := mapSectors_lines cfg.ring s.rwb (s.map.lines.setLine d l) (c.sentry + ppas.length) n d addr
    cfg.minWritePgs 0
  rw [← hlines] at hout hin
  -- what was in use is not on the page
  have hkeep : ∀ a, ¬s.Unused cfg a → s'.map.lines.invalidAt a = s.map.lines.invalidAt a ∧
      s'.map.lines.lbaAt a = s.map.lines.lbaAt a := by
    intro a hused
    obtain ⟨hinv,hl⟩ := hout a (by
      rintro k - hk rfl
      exact hused (hc.addresses.fresh d _ hd (hfree k (by omega))))
    exact ⟨hinv.trans (hset a).1,hl.trans (hset a).2⟩
  constructor
  · intro lba a hpos
    rw [hplaced.transMap] at hpos
    obtain ⟨hinv,hl⟩ := hkeep a fun hu => hu.1 lba hpos
    rw [hinv,hl]
    exact h.mapped lba a hpos
  · intro i a hi
    rw [(hplaced.data i).2.1]
    rcases hplaced.of_mappedAt hi with ⟨hold,-⟩ | ⟨t,ht,rfl,rfl⟩
    · obtain ⟨hinv,hl⟩ := hkeep a fun hu => hu.2 i hold
      rw [hinv,hl]
      exact h.entry i a hold
    · obtain ⟨hinv,hl⟩ := hin t (Nat.zero_le t) (by omega) ht
      rw [hinv,hl,(hset _).1]
      refine ⟨hpage d l addr hd halloc t (by omega),?_⟩
      rw [slot,← RingSize.wrap_add _ (s.lens.sum + ppas.length),← hsentry,RingSize.wrap_add]

theorem Live.endWBio (h : s.Live cfg) (ha : s.Addresses cfg) (q : WReq δ) : (s.endWBio cfg q).Live cfg := by
  apply h.quiet ha (.endWBio q)
  change s.map.lines.Unmarked ((q.ppas.take q.ctx.nrValid).foldl (fun m a => pblkSyncLine m a.line) s.map.lines)
  generalize s.map.lines = m
  induction q.ppas.take q.ctx.nrValid generalizing m with
  | nil => exact .refl m
  | cons a as ih => exact (LineMgmt.Unmarked.syncLine a.line).trans (ih _)

theorem Live.retirable :
    Retirable cfg fun s : Ftl δ => s.Coherent cfg content media ∧ s.Live cfg := by
  have hcoherent : Retirable cfg fun s : Ftl δ => s.Coherent cfg content media := Coherent.retirable
  refine ⟨fun s l h => ⟨hcoherent.complList s l h.1,⟨h.2.mapped,h.2.entry⟩⟩,
    fun s l h => ⟨hcoherent.completed s l h.1,⟨h.2.mapped,h.2.entry⟩⟩,
    fun s l h => ⟨hcoherent.answered s l h.1,⟨h.2.mapped,h.2.entry⟩⟩,?_⟩
  intro s p q hord hq h
  exact ⟨hcoherent.endWBio s p q hord hq h.1,h.2.endWBio h.1.addresses q⟩

theorem Live.reserve (h : s.Live cfg) (ha : s.Addresses cfg) (hord : s.Ordered cfg p) {n : Nat} {xs : List (Sector δ)}
    {acc : List (Option (Sector δ))} (hroom : s.marks.mem + n < s.marks.l2p + cfg.ring.cells) :
    (s.reserve cfg n xs acc).Live cfg := h.quiet ha (.reserve hord hroom) (.refl _)

theorem Live.writeUser (h : s.Live cfg) (hc : s.Coherent cfg content media) (hinv : s.Inv cfg p) {b : Bio δ}
    (hw : s.writeUser cfg b = some s') : s'.Live cfg := by
  obtain ⟨s₁,xs,acc,hroom,-,-,-,-,rfl⟩ := writeUser_effect hw
  obtain ⟨c,rb,m,hup,hle,hfree,heq⟩ := makeRoom_effect hinv.ordered.cursors hroom
  have h₁ := h.release hc hinv hle hup heq
  have hc₁ := (hc.release hinv hle hup heq).2
  have hord₁ : s₁.Ordered cfg p := heq ▸ hinv.ordered.release hle hup
  have hroom₁ : s₁.marks.mem + b.sectors.length < s₁.marks.l2p + cfg.ring.cells := by
    rw [heq]
    exact hfree
  suffices hlive : ((if b.preflush then (s₁.flush cfg b.id b.sectors.length).1 else s₁).reserve cfg b.sectors.length xs
      acc).Live cfg from ⟨hlive.mapped,hlive.entry⟩
  split
  · have hlines : s₁.map.lines.Unmarked (s₁.flush cfg b.id b.sectors.length).1.map.lines := by
      obtain ⟨rb,flushes,hflush⟩ := flush_eq cfg s₁ b.id b.sectors.length
      rw [hflush]
      exact .refl _
    have hflush := h₁.quiet hc₁.addresses (.flush b.id b.sectors.length) hlines
    refine hflush.reserve (hc₁.flush _ _).addresses (flush_sameOrder.ordered hord₁) ?_
    rw [flush_sameOrder.marks]
    exact hroom₁
  · exact h₁.reserve hc₁.addresses hord₁ hroom₁

theorem Live.writeGc (h : s.Live cfg) (hc : s.Coherent cfg content media) (hinv : s.Inv cfg p) {line : Nat}
    {lbas : List (Option Nat)} {data : List δ} (hw : s.writeGc cfg line lbas data = some s') : s'.Live cfg := by
  obtain ⟨s₁,hroom,-,rfl⟩ := writeGc_effect hw
  obtain ⟨c,rb,m,hup,hle,hfree,heq⟩ := makeRoom_effect hinv.ordered.cursors hroom
  have h₁ := h.release hc hinv hle hup heq
  have hc₁ := (hc.release hinv hle hup heq).2
  have hord₁ : s₁.Ordered cfg p := heq ▸ hinv.ordered.release hle hup
  have hlive : (s₁.reserve cfg (gcSectors line lbas data).length (gcSectors line lbas data)
      ((gcSectors line lbas data).map some)).Live cfg := h₁.reserve hc₁.addresses hord₁ (by rw [heq]; exact hfree)
  exact ⟨hlive.mapped,hlive.entry⟩

theorem Live.syncL2p (h : s.Live cfg) (hc : s.Coherent cfg content media) (hinv : s.Inv cfg p)
    (hs : step cfg s .syncL2p = some s') : s'.Live cfg := by
  obtain ⟨⟨rb,m⟩,hup,rfl⟩ := Option.map_eq_some_iff.mp hs
  obtain ⟨hl2p,hsync,hsubm,hlt,hl2pEq,hsyncEq,-,-⟩ := hinv.ordered.cursors
  have hcount : cfg.ring.count s.rwb.sync s.rwb.l2pUpdate = s.marks.sync - s.marks.l2p := by
    rw [hsyncEq,hl2pEq]
    exact RingSize.count_wrap hl2p (by omega)
  exact h.release hc hinv (by omega) hup rfl

end Ftl

namespace Disk

/-- What the marks rely on: a page is not marked when it is given out, and the line management marks no sector
in use. -/
def KeepsMarks (cfg : Config) (d : Disk δ) : Event δ → Prop
  | .mapPage => d.ftl.PageUnmarked cfg
  | .lines m => ∀ a, ¬d.ftl.Unused cfg a → m.invalidAt a = false ∧ m.lbaAt a = d.ftl.map.lines.lbaAt a
  | _ => True

theorem live_step {d : Disk δ} {s : Ftl δ} {p : Nat} {e : Event δ} (hinv : d.ftl.Inv cfg p)
    (hc : d.ftl.Coherent cfg d.content d.media) (h : d.ftl.Live cfg) (hrelies : d.Relies cfg e)
    (hmarks : d.KeepsMarks cfg e) (hs : Pblk.step cfg d.ftl e = some s)
    (he : ∀ k failed recovery, e ≠ .answer k failed recovery) : s.Live cfg := by
  have hord := hinv.ordered
  cases e with
  | writeUser b => exact h.writeUser hc hinv hs
  | writeGc line lbas data => exact h.writeGc hc hinv hs
  | insert j => exact h.insert hc hord hs
  | commit =>
    obtain ⟨-,secs,avail,-,-,rfl⟩ := Ftl.commit_effect hs
    exact ⟨h.mapped,h.entry⟩
  | read =>
    refine h.quiet hc.addresses (.read hord hs) ?_
    obtain ⟨pos,secs,count,rb,ts,-,-,rfl⟩ := Ftl.read_effect hs
    exact .refl _
  | readFail i =>
    refine h.quiet hc.addresses (.readFail hord hs) ?_
    obtain ⟨pos,secs,count,rb,ts,rb',-,-,-,-,rfl⟩ := Ftl.readFail_effect hs
    exact .refl _
  | giveUp =>
    simp only [Pblk.step,Ftl.giveUp] at hs
    split at hs <;> cases hs
    exact ⟨h.mapped,h.entry⟩
  | mapPage => exact h.mapPage hc hord hrelies hmarks hs
  | send ok =>
    simp only [Pblk.step,Ftl.send] at hs
    split at hs
    · split at hs <;> cases hs
      exact ⟨h.mapped,h.entry⟩
    · cases hs
  | answer k failed recovery => exact absurd rfl (he k failed recovery)
  | discard slba n =>
    cases hs
    exact h.discard hc slba n
  | syncL2p => exact h.syncL2p hc hinv hs
  | lines m =>
    cases hs
    constructor
    · intro lba a hpos
      obtain ⟨hinv,hl⟩ := hmarks a fun hu => hu.1 lba hpos
      exact ⟨hinv,hl.trans (h.mapped lba a hpos).2⟩
    · intro i a hi
      obtain ⟨hinv,hl⟩ := hmarks a fun hu => hu.2 i hi
      exact ⟨hinv,hl.trans (h.entry i a hi).2⟩
  | rates n =>
    obtain ⟨x,-,rfl⟩ := Option.map_eq_some_iff.mp hs
    exact ⟨h.mapped,h.entry⟩
  | userTimer =>
    cases hs
    exact ⟨h.mapped,h.entry⟩

theorem live_reaches {pages : Nat → δ} {lines : LineMgmt} {rl : Rl} {d : Disk δ}
    (haligned : ∀ l, lines.dataLine = some l → (lines.line l).Aligned cfg)
    (h : Reaches (Disk.step cfg) (fun d e => d.Relies cfg e ∧ d.KeepsMarks cfg e) (Disk.init pages lines rl) d) :
    ∃ p, d.ftl.Inv cfg p ∧ d.ftl.Coherent cfg d.content d.media ∧ d.ftl.Live cfg := by
  refine h.invariant (fun d => ∃ p, d.ftl.Inv cfg p ∧ d.ftl.Coherent cfg d.content d.media ∧ d.ftl.Live cfg)
    ⟨0,.init pages lines rl,.init haligned,⟨nofun,fun i a hi => absurd hi.2.1 (Nat.not_lt_zero i)⟩⟩ ?_
  rintro d e d' ⟨p,hinv,hc,hlive⟩ ⟨hrelies,hmarks⟩ hs
  obtain ⟨s,hstep,rfl⟩ := Option.map_eq_some_iff.mp hs
  obtain ⟨p',-,hlive'⟩ := hinv.step
    (P := fun t => t.Coherent cfg (d.contentAfter e) (d.mediaAfter e) ∧ t.Live cfg) hstep
    (fun he => ⟨coherent_step hinv hc hrelies hstep he,live_step hinv hc hlive hrelies hmarks hstep he⟩)
    fun _ _ _ he => by
      subst he
      exact ⟨Ftl.Live.retirable,hc,hlive⟩
  exact ⟨p',hlive'⟩

end Disk

theorem keepsMarks_of_mixedCheck (d : Disk Nat) (e : Event Nat) (h : mixedCheck d e = true) :
    d.KeepsMarks smallConfig e := by
  cases e with
  | mapPage =>
    intro l line addr hl halloc t ht
    have halloc' : pblkAllocPage smallConfig (d.ftl.map.lines.line l) 2 = some (line,addr) := halloc
    simp only [mixedCheck,hl,halloc',Option.map_some,Option.some.injEq,Bool.and_eq_true,decide_eq_true_eq,
      Option.getD_some,List.all_eq_true,List.mem_range,Bool.not_eq_true'] at h
    exact h.2 t ht
  | lines m => cases h
  | _ => trivial

theorem mixedDisk_reaches_marks : Reaches (Disk.step smallConfig)
    (fun d e => d.Relies smallConfig e ∧ d.KeepsMarks smallConfig e)
    (Disk.init (fun _ => 0) smallLines smallRl) mixedDisk :=
  Reaches.of_foldlM_checked (fun d e h => ⟨relies_of_mixedCheck d e h,keepsMarks_of_mixedCheck d e h⟩)
    (Option.some_get mixedRun_isSome).symm

theorem mem_validSecs {env : GcEnv δ} {i : Nat} : i ∈ validSecs env 0 ↔ i ≤ env.emetaSsec ∧ env.invalid i = false := by
  simp [validSecs,Nat.lt_succ_iff]

/-- A sector that is handed over is copied if the map of its round leads there. -/
theorem mem_copies {env : GcEnv δ} {line k j i : Nat} {secs : List Nat} {x : Sector δ} (hj : secs[j]? = some i)
    (hx : liveSector (env.map ((k + j) / cfg.maxWritePgs)) env.dev line (env.lbaList i) = some x) :
    x ∈ copies cfg env line k secs := by
  refine List.mem_filterMap.mpr ⟨(i,k + j),?_,hx⟩
  rw [List.mem_iff_getElem?]
  exact ⟨j,by rw [List.getElem?_zipIdx,hj,Option.map_some]⟩

theorem closedDisk_reaches_marks : Reaches (Disk.step smallConfig)
    (fun d e => d.Relies smallConfig e ∧ d.KeepsMarks smallConfig e)
    (Disk.init (fun _ => 0) smallLines smallRl) closedDisk := by
  obtain ⟨p,-,-,hlive⟩ := Disk.live_reaches (fun l _ => smallLines_aligned l) mixedDisk_reaches_marks
  refine mixedDisk_reaches_marks.tail ⟨?_,?_⟩ closedDisk_step
  · intro l hl
    exact nomatch (show (none : Option Nat) = some l from hl)
  · intro a hused
    have hsame (m : LineMgmt) : ({ m with dataLine := none } : LineMgmt).invalidAt a = m.invalidAt a ∧
        ({ m with dataLine := none } : LineMgmt).lbaAt a = m.lbaAt a := ⟨rfl,rfl⟩
    obtain ⟨hinvalid,hlba⟩ := hsame mixedDisk.ftl.map.lines
    exact ⟨hinvalid.trans (hlive.of_used hused),hlba⟩

/-- The collection of line 0 of `closedDisk`, whose metadata begins at its last sector. -/
def closedGc : GcEnv Nat where
  invalid := (closedDisk.ftl.map.lines.line 0).invalidBitmap
  map := fun _ => closedDisk.ftl.map
  ok := fun _ => true
  dev := closedDev
  lbaList := fun i => if i ≤ 7 then (closedDisk.ftl.map.lines.line 0).lbaList i else none
  emetaSsec := 7

theorem closedGc_range (i lba : Nat) (h : closedGc.lbaList i = some lba) : lba < smallConfig.nrSecs := by
  have hall : ∀ i, i ≤ 7 → ((closedDisk.ftl.map.lines.line 0).lbaList i).all (· < 16) = true := by decide +kernel
  simp only [closedGc,Option.ite_none_right_eq_some] at h
  have hi := hall i h.1
  rw [h.2] at hi
  exact of_decide_eq_true hi

end Sdssd.Pblk
