import Sdssd.Pblk.BufferSafety

/-!
# The counters and budgets of the rate limiter

`rb_user_cnt` and `rb_gc_cnt` grow when entries are reserved and shrink when the write thread reads them.
-/

namespace Sdssd.Pblk

open Framework

variable {δ : Type} {cfg : Config}

namespace Ftl

/-- Entries that no sector is copied to are reserved by user bios without data. -/
def ioOf : Option (Sector δ) → IoType
  | none => .user
  | some x => x.src.iotype

def entered (s : Ftl δ) (io : IoType) : Nat := s.accepted.countP fun a => decide (ioOf a = io)

def Writer.taken : Writer δ → List (Taken δ)
  | .mapping _ taken _ => taken
  | _ => []

def left (s : Ftl δ) (io : IoType) : Nat :=
  (s.device.map fun q => countIo io q.taken).sum + countIo io (Writer.taken s.writer)

/-- What was let in is in the buffer or was taken out. -/
structure Counted (s : Ftl δ) : Prop where
  user : s.rl.rbUserCnt + s.left .user = s.entered .user
  gc : s.rl.rbGcCnt + s.left .gc = s.entered .gc

variable {s s' : Ftl δ} {p : Nat}

theorem Counted.congr (h : s.Counted) (huser : s'.rl.rbUserCnt = s.rl.rbUserCnt) (hgc : s'.rl.rbGcCnt = s.rl.rbGcCnt)
    (haccepted : s'.accepted = s.accepted) (hdevice : s'.device = s.device)
    (hwriter : Writer.taken s'.writer = Writer.taken s.writer) : s'.Counted := by
  refine ⟨?_,?_⟩
  · rw [huser,left,entered,hdevice,hwriter,haccepted]
    exact h.user
  · rw [hgc,left,entered,hdevice,hwriter,haccepted]
    exact h.gc

/-- The taken sectors of the write thread become those of its request. -/
theorem Counted.push (h : s.Counted) {q : WReq δ} (hq : q.taken = Writer.taken s.writer) (hrl : s'.rl = s.rl)
    (haccepted : s'.accepted = s.accepted) (hdevice : s'.device = s.device ++ [q]) (hwriter : s'.writer = .idle) :
    s'.Counted := by
  have hleft : ∀ io, s'.left io = s.left io := by
    intro io
    rw [left,left,hdevice,hwriter,List.map_append,List.sum_append,List.map_singleton,List.sum_singleton,hq]
    rfl
  refine ⟨?_,?_⟩ <;> rw [hrl,hleft,entered,haccepted]
  · exact h.user
  · exact h.gc

theorem countP_ioOf {acc : List (Option (Sector δ))} {io : IoType} (h : ∀ a ∈ acc, ioOf a = io) (io' : IoType) :
    acc.countP (fun a => decide (ioOf a = io')) = if io = io' then acc.length else 0 := by
  split
  · rename_i heq
    subst heq
    rw [List.countP_eq_length]
    intro a ha
    exact decide_eq_true (h a ha)
  · rename_i hne
    rw [List.countP_eq_zero]
    intro a ha
    rw [h a ha]
    simpa using hne

/-- Entries of one kind are reserved. -/
theorem Counted.enter (h : s.Counted) {acc : List (Option (Sector δ))} {io : IoType} (hio : ∀ a ∈ acc, ioOf a = io)
    (haccepted : s'.accepted = s.accepted ++ acc) (hdevice : s'.device = s.device) (hwriter : s'.writer = s.writer)
    (huser : s'.rl.rbUserCnt = s.rl.rbUserCnt + (if io = .user then acc.length else 0 : Nat))
    (hgc : s'.rl.rbGcCnt = s.rl.rbGcCnt + (if io = .gc then acc.length else 0 : Nat)) : s'.Counted := by
  have hentered : ∀ io', s'.entered io' = s.entered io' + if io = io' then acc.length else 0 := by
    intro io'
    rw [entered,haccepted,List.countP_append,countP_ioOf hio,entered]
  have hleft : ∀ io', s'.left io' = s.left io' := by
    intro io'
    rw [left,left,hdevice,hwriter]
  have hu := h.user
  have hg := h.gc
  refine ⟨?_,?_⟩ <;> rw [hentered,hleft]
  · omega
  · omega

theorem Counted.retirable : Retirable cfg fun s : Ftl δ => s.Counted where
  complList _ _ h := h.congr rfl rfl rfl rfl rfl
  completed _ _ h := h.congr rfl rfl rfl rfl rfl
  answered _ _ h := h.congr rfl rfl rfl rfl rfl
  endWBio _ _ _ _ _ h := h.congr rfl rfl rfl rfl rfl

theorem Counted.read (h : s.Counted) (hr : s.read cfg = some s') : s'.Counted := by
  obtain ⟨pos,secs,count,rb,ts,hw,-,rfl⟩ := read_effect hr
  have huser := h.user
  have hgc := h.gc
  simp only [left,hw,Writer.taken] at huser hgc
  refine ⟨?_,?_⟩ <;> simp only [left,Writer.taken,pblkRlOut,entered] at huser hgc ⊢
  · have hnone : countIo .user ([] : List (Taken δ)) = 0 := rfl
    omega
  · have hnone : countIo .gc ([] : List (Taken δ)) = 0 := rfl
    omega

theorem Counted.writeUser (h : s.Counted) (hord : s.Ordered cfg p) {b : Bio δ} (hw : s.writeUser cfg b = some s') :
    s'.Counted := by
  obtain ⟨s₁,xs,acc,hroom,hlen,-,hacc,-,rfl⟩ := writeUser_effect hw
  obtain ⟨c,rb,m,-,-,-,rfl⟩ := makeRoom_effect hord.cursors hroom
  have hio : ∀ a ∈ acc, ioOf a = .user := by
    intro a ha
    cases a with
    | none => rfl
    | some x =>
      rw [ioOf,hacc x ha]
      rfl
  obtain ⟨rb',flushes,heq⟩ := flush_eq cfg
    { s with rwb := rb, map := m, marks := { s.marks with l2p := s.marks.l2p + c } } b.id b.sectors.length
  rw [heq]
  have hcnt : (b.sectors.length : Int) = (if IoType.user = .user then acc.length else 0 : Nat) := by
    rw [if_pos rfl,hlen]
  have hzero : s.rl.rbGcCnt = s.rl.rbGcCnt + (if IoType.user = .gc then acc.length else 0 : Nat) := by simp
  split
  · exact h.enter hio rfl rfl rfl (congrArg (s.rl.rbUserCnt + ·) hcnt) hzero
  · exact h.enter hio rfl rfl rfl (congrArg (s.rl.rbUserCnt + ·) hcnt) hzero

theorem Counted.writeGc (h : s.Counted) (hord : s.Ordered cfg p) {line : Nat} {lbas : List (Option Nat)} {data : List δ}
    (hw : s.writeGc cfg line lbas data = some s') : s'.Counted := by
  obtain ⟨s₁,hroom,-,rfl⟩ := writeGc_effect hw
  obtain ⟨c,rb,m,-,-,-,rfl⟩ := makeRoom_effect hord.cursors hroom
  have hio : ∀ a ∈ (gcSectors line lbas data).map some, ioOf a = .gc := by
    intro a ha
    obtain ⟨x,hx,rfl⟩ := List.mem_map.mp ha
    rw [ioOf,src_gcSectors hx]
    rfl
  have hcnt : ((gcSectors line lbas data).length : Int) =
      (if IoType.gc = .gc then ((gcSectors line lbas data).map some).length else 0 : Nat) := by
    rw [if_pos rfl,List.length_map]
  have hzero : s.rl.rbUserCnt = s.rl.rbUserCnt +
      (if IoType.gc = .user then ((gcSectors line lbas data).map some).length else 0 : Nat) := by simp
  exact h.enter hio rfl rfl rfl hzero (congrArg (s.rl.rbGcCnt + ·) hcnt)

theorem updateRates_counters {rl : Rl} {max : Int} {x : Rl × RlAction} (h : pblkRlUpdateRates rl max = some x) :
    x.1.rbUserCnt = rl.rbUserCnt ∧ x.1.rbGcCnt = rl.rbGcCnt := by
  unfold pblkRlUpdateRates at h
  split at h
  · cases h
    exact ⟨rfl,rfl⟩
  · split at h
    · split at h
      · cases h
      · cases h
        exact ⟨rfl,rfl⟩
    · cases h
      exact ⟨rfl,rfl⟩

theorem Counted.step (h : s.Counted) (hord : s.Ordered cfg p) {e : Event δ} (hs : Pblk.step cfg s e = some s')
    (he : ∀ k failed recovery, e ≠ .answer k failed recovery) : s'.Counted := by
  cases e with
  | writeUser b => exact h.writeUser hord hs
  | writeGc line lbas data => exact h.writeGc hord hs
  | insert j =>
    obtain ⟨pos,x,m,-,-,-,rfl⟩ := insert_effect hs
    exact h.congr rfl rfl rfl rfl rfl
  | commit =>
    obtain ⟨hw,secs,avail,-,-,rfl⟩ := commit_effect hs
    exact h.congr rfl rfl rfl rfl (by rw [hw]; rfl)
  | read => exact h.read hs
  | readFail i =>
    obtain ⟨pos,secs,count,rb,ts,rb',hw,-,-,-,rfl⟩ := readFail_effect hs
    exact h.push (q := ⟨cCtx pos secs count,[],[],false⟩) (by rw [hw]; rfl) rfl rfl rfl rfl
  | giveUp =>
    simp only [Pblk.step,Ftl.giveUp] at hs
    split at hs <;> cases hs
    rename_i c taken hw
    exact h.push (q := ⟨c,taken,[],false⟩) (by rw [hw]; rfl) rfl rfl rfl rfl
  | mapPage =>
    obtain ⟨c,taken,ppas,d,l,paddr,hw,-,-,-,rfl⟩ := mapPage_effect hs
    exact h.congr rfl rfl rfl rfl (by rw [hw]; rfl)
  | send ok =>
    simp only [Pblk.step,Ftl.send] at hs
    split at hs
    · rename_i c taken ppas hw
      split at hs <;> cases hs
      exact h.push (q := ⟨c,taken,ppas,ok⟩) (by rw [hw]; rfl) rfl rfl rfl rfl
    · cases hs
  | answer k failed recovery => exact absurd rfl (he k failed recovery)
  | discard slba n =>
    cases hs
    exact h.congr rfl rfl rfl rfl rfl
  | syncL2p =>
    obtain ⟨x,-,rfl⟩ := Option.map_eq_some_iff.mp hs
    exact h.congr rfl rfl rfl rfl rfl
  | lines m =>
    cases hs
    exact h.congr rfl rfl rfl rfl rfl
  | rates n =>
    obtain ⟨x,hx,rfl⟩ := Option.map_eq_some_iff.mp hs
    obtain ⟨huser,hgc⟩ := updateRates_counters hx
    exact h.congr huser hgc rfl rfl rfl
  | userTimer =>
    cases hs
    exact h.congr rfl rfl rfl rfl rfl

/-! ## What is left in the buffer -/

/-- How many entries the write thread has read. -/
def readMark (s : Ftl δ) : Nat :=
  s.lens.sum + match s.writer with
    | .mapping c _ _ => c.nrValid
    | _ => 0

theorem countIo_of_slice {io : IoType} {taken : List (Taken δ)} {l : List (Option (Sector δ))}
    (h : taken.map some = l.map (Option.map Sector.taken)) :
    countIo io taken = l.countP fun a => decide (ioOf a = io) := by
  induction l generalizing taken with
  | nil =>
    rw [List.map_nil,List.map_eq_nil_iff] at h
    subst h
    rfl
  | cons a l ih =>
    cases taken with
    | nil => cases h
    | cons t taken =>
      rw [List.map_cons,List.map_cons,List.cons.injEq] at h
      obtain ⟨hhead,htail⟩ := h
      cases a with
      | none => cases hhead
      | some x =>
        cases hhead
        rw [countIo,List.countP_cons,List.countP_cons,← countIo,ih htail]
        by_cases hx : x.src.iotype = io <;> simp [Sector.taken,ioOf,hx]

theorem countIo_flatMap {io : IoType} {qs : List (WReq δ)} :
    countIo io (qs.flatMap WReq.taken) = (qs.map fun q => countIo io q.taken).sum := by
  rw [countIo,List.countP_flatMap]
  rfl

/-- Without lost requests exactly the entries that were read have been taken out. -/
theorem Ordered.left_eq (h : s.Ordered cfg p) (hsent : ∀ q ∈ s.device, q.sent = true) (io : IoType) :
    s.left io = (s.accepted.take s.readMark).countP fun a => decide (ioOf a = io) := by
  have hdevice : (s.device.map fun q => countIo io q.taken).sum =
      (s.accepted.take s.lens.sum).countP fun a => decide (ioOf a = io) := by
    rw [← countIo_flatMap]
    apply countIo_of_slice
    rw [List.map_flatMap]
    exact h.taken_eq hsent
  have hwriter : countIo io (Writer.taken s.writer) =
      ((s.accepted.drop s.lens.sum).take (s.readMark - s.lens.sum)).countP fun a => decide (ioOf a = io) := by
    unfold readMark
    rw [Nat.add_sub_cancel_left]
    cases hw : s.writer with
    | idle => simp [Writer.taken,countIo]
    | committed pos secs count => simp [Writer.taken,countIo]
    | mapping c taken ppas => exact countIo_of_slice (h.fifo.writer c taken ppas hw)
  have hmark : s.readMark = s.lens.sum + (s.readMark - s.lens.sum) := by
    unfold readMark
    omega
  rw [left,hdevice,hwriter,hmark,List.take_add,List.countP_append,Nat.add_sub_cancel_left]

theorem countIo_eq_countP {io : IoType} {taken : List (Taken δ)} :
    countIo io taken = (taken.map some).countP fun t => decide (t.bind Taken.iotype = some io) := by
  rw [List.countP_map]
  rfl

/-- Nothing is taken out that was not let in; the entries of a lost request may stay counted. -/
theorem Ordered.left_le (h : s.Ordered cfg p) (io : IoType) : s.left io ≤ s.entered io := by
  let test : Option (Taken δ) → Bool := fun t => decide (t.bind Taken.iotype = some io)
  let l := s.accepted.map (Option.map Sector.taken)
  have hdevice : (s.device.map fun q => countIo io q.taken).sum ≤ (l.take s.lens.sum).countP test := by
    have hsum := sum_countP_le test (s.device.map fun q => q.taken.map some) (l := l)
      (show s.lens.length = _ by simp [lens]) ?_
    · rw [List.map_map] at hsum
      refine Nat.le_trans (Nat.le_of_eq ?_) hsum
      exact congrArg List.sum (List.map_congr_left fun q _ => countIo_eq_countP)
    · intro k xs n hk hn
      rw [List.getElem?_map] at hk
      obtain ⟨q,hq,rfl⟩ := Option.map_eq_some_iff.mp hk
      rw [lens,List.getElem?_map,hq,Option.map_some,Option.some_inj] at hn
      subst hn
      by_cases hnil : q.taken = []
      · exact Or.inl (by rw [hnil,List.map_nil])
      · refine Or.inr ?_
        rw [← List.map_drop,← List.map_take]
        exact h.fifo.device k q hq (Or.inr hnil)
  have hwriter : countIo io (Writer.taken s.writer) ≤ (l.drop s.lens.sum).countP test := by
    cases hw : s.writer with
    | idle => simp [Writer.taken,countIo]
    | committed pos secs count => simp [Writer.taken,countIo]
    | mapping c taken ppas =>
      have hslice := h.fifo.writer c taken ppas hw
      rw [slice,List.map_take,List.map_drop] at hslice
      rw [Writer.taken,countIo_eq_countP,hslice]
      exact (List.take_sublist _ _).countP_le
  have hall : l.countP test ≤ s.entered io := by
    rw [List.countP_map]
    apply List.countP_mono_left
    intro a _ ha
    cases a with
    | none => simp [test] at ha
    | some x => exact decide_eq_true (show x.src.iotype = io by simpa [test,Sector.taken] using ha)
  have hsplit : (l.take s.lens.sum).countP test + (l.drop s.lens.sum).countP test = l.countP test := by
    rw [← List.countP_append,List.take_append_drop]
  rw [left]
  omega

end Ftl

section Results

variable {pages : Nat → δ} {lines : LineMgmt} {rl : Rl} {s : Ftl δ}

/-- The counters never go below zero, which `pblk_rl_out` warns about, and as long as no request was lost
they count exactly the entries that the write thread has not read. -/
theorem rate_counters_exact (h : Reaches (step cfg) always (Ftl.init pages lines rl) s) (huser : rl.rbUserCnt = 0)
    (hgc : rl.rbGcCnt = 0) : 0 ≤ s.rl.rbUserCnt ∧ 0 ≤ s.rl.rbGcCnt ∧
      ((∀ q ∈ s.device, q.sent = true) →
        s.rl.rbUserCnt = (s.accepted.drop s.readMark).countP (fun a => decide (Ftl.ioOf a = .user)) ∧
        s.rl.rbGcCnt = (s.accepted.drop s.readMark).countP (fun a => decide (Ftl.ioOf a = .gc))) := by
  have hinit : (Ftl.init pages lines rl).Counted := by
    refine ⟨?_,?_⟩
    · change rl.rbUserCnt + 0 = 0
      omega
    · change rl.rbGcCnt + 0 = 0
      omega
  obtain ⟨p,-,hinv,hcounted⟩ := Ftl.Inv.reaches Ftl.Counted.retirable (fun hord hc hs he => hc.step hord hs he)
    (Ftl.Inv.init pages lines rl) hinit h
  have hu := hcounted.user
  have hg := hcounted.gc
  have hule := hinv.ordered.left_le .user
  have hgle := hinv.ordered.left_le .gc
  refine ⟨by omega,by omega,?_⟩
  intro hsent
  have hsplit : ∀ io, s.entered io = s.left io +
      (s.accepted.drop s.readMark).countP (fun a => decide (Ftl.ioOf a = io)) := by
    intro io
    rw [hinv.ordered.left_eq hsent,← List.countP_append,List.take_append_drop]
    rfl
  have huEq := hsplit .user
  have hgEq := hsplit .gc
  exact ⟨by omega,by omega⟩

theorem rate_counters_exact_small : smallState.rl.rbUserCnt = 2 ∧
    smallState.rl.rbUserCnt = (smallState.accepted.drop smallState.readMark).countP
      (fun a => decide (Ftl.ioOf a = .user)) := by
  refine ⟨by decide,?_⟩
  exact ((rate_counters_exact smallState_reaches rfl rfl).2.2 (by decide)).1

end Results

/-! ## Budgets -/

/-- The budgets of user I/O and the collector share out the buffer, which is a whole number of requests. -/
structure Rl.Budgeted (high windows budget : Nat) (rl : Rl) : Prop where
  high_eq : rl.highPw = high
  windows_eq : rl.rbWindowsPw = windows
  budget_eq : rl.rbBudget = budget
  requests : budget = 2 ^ windows * maxReqAddrs
  rsv : 0 ≤ rl.rbGcRsv ∧ rl.rbGcRsv ≤ maxReqAddrs
  user : 0 ≤ rl.rbUserMax
  gc : 0 ≤ rl.rbGcMax
  sum : rl.rbUserMax + rl.rbGcMax = budget

namespace Rl.Budgeted

variable {high windows budget : Nat} {rl rl' : Rl}

theorem congr (h : rl.Budgeted high windows budget) (hhigh : rl'.highPw = rl.highPw)
    (hwindows : rl'.rbWindowsPw = rl.rbWindowsPw) (hbudget : rl'.rbBudget = rl.rbBudget)
    (hrsv : rl'.rbGcRsv = rl.rbGcRsv) (huser : rl'.rbUserMax = rl.rbUserMax) (hgc : rl'.rbGcMax = rl.rbGcMax) :
    rl'.Budgeted high windows budget := by
  obtain ⟨h₁,h₂,h₃,h₄,h₅,h₆,h₇,h₈⟩ := h
  exact ⟨hhigh.trans h₁,hwindows.trans h₂,hbudget.trans h₃,h₄,hrsv ▸ h₅,huser ▸ h₆,hgc ▸ h₇,by rw [huser,hgc,h₈]⟩

/-- With less than `2 ^ high` free blocks at least one window is left for the collector. -/
theorem userWindows_lt {free : Nat} (hfree : free < 2 ^ high) (hle : windows ≤ high) :
    free >>> (high - windows) < 2 ^ windows := by
  rw [Nat.shiftRight_eq_div_pow,Nat.div_lt_iff_lt_mul (Nat.two_pow_pos _),← Nat.pow_add,Nat.add_sub_cancel' hle]
  exact hfree

theorem updateRates (h : rl.Budgeted high windows budget) {n : Nat} {x : Rl × RlAction}
    (hx : pblkRlUpdateRates { rl with freeBlocks := n } rl.rbBudget = some x) : x.1.Budgeted high windows budget := by
  obtain ⟨h₁,h₂,h₃,h₄,⟨h₅,h₅'⟩,h₆,h₇,h₈⟩ := h
  have hreq : (maxReqAddrs : Int) ≤ budget := by
    have hpos : maxReqAddrs ≤ 2 ^ windows * maxReqAddrs := Nat.le_mul_of_pos_left _ (Nat.two_pow_pos windows)
    omega
  unfold pblkRlUpdateRates at hx
  dsimp only at hx
  split at hx
  · cases hx
    refine ⟨h₁,h₂,h₃,h₄,⟨h₅,h₅'⟩,?_,h₅,?_⟩ <;> dsimp only <;> omega
  · rename_i hlow
    split at hx
    · split at hx
      · cases hx
      · rename_i hshift
        have hlt : n >>> (rl.highPw - rl.rbWindowsPw) < 2 ^ rl.rbWindowsPw := userWindows_lt (by omega) (by omega)
        have hmax : (n >>> (rl.highPw - rl.rbWindowsPw)) <<< maxReqAddrsPw + maxReqAddrs ≤ budget := by
          rw [Nat.shiftLeft_eq,h₄,← h₂]
          change n >>> (rl.highPw - rl.rbWindowsPw) * 64 + 64 ≤ 2 ^ rl.rbWindowsPw * 64
          omega
        cases hx
        refine ⟨h₁,h₂,h₃,h₄,⟨h₅,h₅'⟩,Int.natCast_nonneg _,?_,?_⟩ <;> dsimp only <;> omega
    · cases hx
      refine ⟨h₁,h₂,h₃,h₄,⟨h₅,h₅'⟩,Int.le_refl 0,?_,?_⟩ <;> dsimp only <;> omega

end Rl.Budgeted

theorem budgeted_retirable {high windows budget : Nat} :
    Ftl.Retirable cfg fun s : Ftl δ => s.rl.Budgeted high windows budget :=
  ⟨fun _ _ h => h,fun _ _ h => h,fun _ _ h => h,fun _ _ _ _ _ h => h⟩

theorem budgeted_step {high windows budget : Nat} {s s' : Ftl δ}
    (h : s.rl.Budgeted high windows budget) {e : Event δ} (hs : step cfg s e = some s')
    (he : ∀ k failed recovery, e ≠ .answer k failed recovery) : s'.rl.Budgeted high windows budget := by
  cases e with
  | writeUser b =>
    obtain ⟨s₁,xs,acc,-,-,-,-,-,rfl⟩ := Ftl.writeUser_effect hs
    exact h.congr rfl rfl rfl rfl rfl rfl
  | writeGc line lbas data =>
    obtain ⟨s₁,-,-,rfl⟩ := Ftl.writeGc_effect hs
    exact h.congr rfl rfl rfl rfl rfl rfl
  | insert j =>
    obtain ⟨pos,x,m,-,-,-,rfl⟩ := Ftl.insert_effect hs
    exact h
  | commit =>
    obtain ⟨-,secs,avail,-,-,rfl⟩ := Ftl.commit_effect hs
    exact h
  | read =>
    obtain ⟨pos,secs,count,rb,ts,-,-,rfl⟩ := Ftl.read_effect hs
    exact h.congr rfl rfl rfl rfl rfl rfl
  | readFail i =>
    obtain ⟨pos,secs,count,rb,ts,rb',-,-,-,-,rfl⟩ := Ftl.readFail_effect hs
    exact h
  | giveUp =>
    simp only [step,Ftl.giveUp] at hs
    split at hs <;> cases hs
    exact h
  | mapPage =>
    obtain ⟨c,taken,ppas,d,l,paddr,-,-,-,-,rfl⟩ := Ftl.mapPage_effect hs
    exact h
  | send ok =>
    simp only [step,Ftl.send] at hs
    split at hs
    · split at hs <;> cases hs
      exact h
    · cases hs
  | answer k failed recovery => exact absurd rfl (he k failed recovery)
  | discard slba n =>
    cases hs
    exact h
  | syncL2p =>
    obtain ⟨x,-,rfl⟩ := Option.map_eq_some_iff.mp hs
    exact h
  | lines m =>
    cases hs
    exact h
  | rates n =>
    obtain ⟨x,hx,rfl⟩ := Option.map_eq_some_iff.mp hs
    exact h.updateRates hx
  | userTimer =>
    cases hs
    exact h.congr rfl rfl rfl rfl rfl rfl

theorem budgeted_init {r : RingSize} (hring : maxReqAddrsPw ≤ r.order) (total free : Nat) :
    (pblkRlInit total free r.cells).Budgeted (getCountOrder (total / userHighThrs)) (r.order - maxReqAddrsPw)
      r.cells := by
  have hcells : r.cells = 2 ^ (r.order - maxReqAddrsPw) * maxReqAddrs := by
    change 2 ^ r.order = _ * 2 ^ maxReqAddrsPw
    rw [← Nat.pow_add,Nat.sub_add_cancel hring]
  have hwindows : getCountOrder (r.cells / maxReqAddrs) = r.order - maxReqAddrsPw := by
    rw [hcells,Nat.mul_div_cancel _ (show 0 < maxReqAddrs by decide),getCountOrder]
    exact Nat.clog_pow 2 _ Nat.one_lt_two
  exact ⟨rfl,hwindows,rfl,hcells,⟨Int.le_refl 0,Int.natCast_nonneg _⟩,Int.natCast_nonneg _,Int.le_refl 0,Int.add_zero _⟩

theorem wideOrder_lt : 6 < 32 := by decide

/-- The least buffer that is a whole number of requests. -/
def wideConfig : Config := { smallConfig with ring := ⟨6,wideOrder_lt⟩ }

end Sdssd.Pblk
