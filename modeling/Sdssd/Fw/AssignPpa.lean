import Sdssd.Framework.Walk
import Sdssd.Fw.PageType

/-!
# Assignment of pages to a host write

`atc_assign_ppa` walks from the current page of a band along the order in which the band is written,
gives the normal pages it meets to the command and stops on the first normal page it does not need.
The pages and the order are left open; the type of a page is what `lookup_page_type_fast` returns.
-/

namespace Sdssd.Fw

open Framework

/-- The functions called for the page on which the walk stands. -/
inductive AtcCall
  | updateLogPage
  | commitLogPage
  | ckptMonitor
  | commitRaif1
  | commitRaif2
  deriving DecidableEq, Repr

/-- Values of the local variable `cpa`: that of a host page or one of `SPECIAL_CPA_*`. -/
inductive LogCpa
  | host (cpa : BitVec 32)
  | invalid
  | ftllog
  | raif1
  | raif2
  deriving DecidableEq, Repr

/-- The local variables of `atc_assign_ppa`, the caller's `ppalist` and the calls made so far. -/
structure Atc (π : Type*) where
  currentPpa : π
  idx : Nat
  cpa : LogCpa
  ppalist : Nat → π
  flushLogPage : Bool
  flushRaif1 : Bool
  flushRaif2 : Bool
  calls : List (AtcCall × π)

namespace Atc

variable {π : Type*}

/-- The `switch` on the page type. -/
def assign (scpa : BitVec 32) (s : Atc π) : PgType → Atc π
  | .normalPage => { s with
      ppalist := Function.update s.ppalist s.idx s.currentPpa
      cpa := .host (scpa + BitVec.ofNat 32 s.idx)
      idx := (s.idx + 1) % 2^16 }
  | .badblkPage => { s with cpa := .invalid }
  | .ftlLogPage => { s with cpa := .ftllog, flushLogPage := true }
  | .raif1Page => { s with cpa := .raif1 }
  | .raif2Page => { s with cpa := .raif2 }
  | .firstPage => s
  | .invalidPage => s

def call (s : Atc π) (fn : AtcCall) : Atc π := { s with calls := s.calls ++ [(fn,s.currentPpa)] }

/-- The calls behind the `switch`. -/
def commit (s : Atc π) : Atc π :=
  let s := s.call .updateLogPage
  let s := if s.flushLogPage then
    ({ s with flushLogPage := false }.call .commitLogPage).call .ckptMonitor else s
  let s := if s.flushRaif1 then { s with flushRaif1 := false }.call .commitRaif1 else s
  if s.flushRaif2 then { s with flushRaif2 := false }.call .commitRaif2 else s

end Atc

section Loop

variable {π : Type*} (lookup : π → PgType) (increase : π → π) (scpa : BitVec 32) (nppas : BitVec 16)

/-- One iteration. -/
def atcBody (s : Atc π) : Atc π :=
  let s := (s.assign scpa (lookup s.currentPpa)).commit
  { s with currentPpa := increase s.currentPpa }

/-- `while(1)`, for at most so many tests of the `break`. -/
def atcLoop : Nat → Atc π → Option (Atc π)
  | 0, _ => none
  | fuel+1, s =>
    if lookup s.currentPpa = .normalPage ∧ nppas.toNat ≤ s.idx then some s
    else atcLoop fuel (atcBody lookup increase scpa s)

end Loop

/-- What a call leaves behind: the current pages of the bands, the list and the calls made. -/
structure AtcResult (π : Type*) where
  bands : Nat → π
  ppalist : Nat → π
  calls : List (AtcCall × π)

/-- `atc_assign_ppa` for a band; `bands` has the member `current_ppa` of every band. -/
def atcAssignPpa {π : Type*} (lookup : π → PgType) (increase : π → π) (fuel : Nat) (bands : Nat → π)
    (band : Nat) (scpa : BitVec 32) (nppas : BitVec 16) (ppalist : Nat → π) : Option (AtcResult π) :=
  (atcLoop lookup increase scpa nppas fuel
    ⟨bands band,0,.host scpa,ppalist,false,false,false,[]⟩).map fun s =>
      ⟨Function.update bands band s.currentPpa,s.ppalist,s.calls⟩

/-- The calls for one page; nothing is committed for a parity page. -/
def callsAt {π : Type*} (lookup : π → PgType) (ppa : π) : List (AtcCall × π) :=
  (.updateLogPage,ppa) ::
    if lookup ppa = .ftlLogPage then [(.commitLogPage,ppa),(.ckptMonitor,ppa)] else []

section Walk

variable {π : Type*} {lookup : π → PgType} {increase : π → π} {scpa : BitVec 32} {nppas : BitVec 16}
variable {start : π} {old : Nat → π} {k : Nat} {s : Atc π}

/-- Page number `i` from the start on is normal. -/
def normalAt (lookup : π → PgType) (increase : π → π) (start : π) (i : Nat) : Prop :=
  lookup (itemAt increase start i) = .normalPage

instance : DecidablePred (normalAt lookup increase start) :=
  fun _ => inferInstanceAs (Decidable (_ = _))

/-- Normal pages recur from the start on. -/
def NormalRecurs (lookup : π → PgType) (increase : π → π) (start : π) : Prop :=
  Recurs increase (fun ppa => lookup ppa = .normalPage) start

/-- Normal page number `j` at or after the start. -/
noncomputable def nthNormal (lookup : π → PgType) (increase : π → π) (start : π) (j : Nat) : π :=
  nthItem increase (fun ppa => lookup ppa = .normalPage) start j

theorem NormalRecurs.infinite (h : NormalRecurs lookup increase start) :
    (Set.ofPred (normalAt lookup increase start)).Infinite :=
  Recurs.infinite h

/-- What holds after `k` pages. -/
structure Walked (lookup : π → PgType) (increase : π → π) (start : π) (old : Nat → π) (k : Nat)
    (s : Atc π) : Prop where
  currentPpa : s.currentPpa = itemAt increase start k
  idx : s.idx = Nat.count (normalAt lookup increase start) k
  ppalist : ∀ j, s.ppalist j = if j < Nat.count (normalAt lookup increase start) k
    then itemAt increase start (Nat.nth (normalAt lookup increase start) j) else old j
  flags : s.flushLogPage = false ∧ s.flushRaif1 = false ∧ s.flushRaif2 = false
  calls : s.calls = (List.range k).flatMap fun i => callsAt lookup (itemAt increase start i)

/-- The `switch` and the calls behind it, from a state without a flag set. -/
theorem Atc.commit_assign (lookup : π → PgType) (scpa : BitVec 32)
    (hflags : s.flushLogPage = false ∧ s.flushRaif1 = false ∧ s.flushRaif2 = false) :
    ∃ cpa, (s.assign scpa (lookup s.currentPpa)).commit = { s with
      ppalist := if lookup s.currentPpa = .normalPage then Function.update s.ppalist s.idx s.currentPpa
        else s.ppalist
      cpa := cpa
      idx := if lookup s.currentPpa = .normalPage then (s.idx + 1) % 2^16 else s.idx
      calls := s.calls ++ callsAt lookup s.currentPpa } := by
  obtain ⟨hlog,hraif1,hraif2⟩ := hflags
  cases htype : lookup s.currentPpa <;>
    simp [Atc.assign,Atc.commit,Atc.call,callsAt,htype,hlog,hraif1,hraif2]

/-- One more page, unless the loop is left. -/
theorem Walked.step (h : Walked lookup increase start old k s)
    (hgo : normalAt lookup increase start k →
      Nat.count (normalAt lookup increase start) k < nppas.toNat) :
    Walked lookup increase start old (k + 1) (atcBody lookup increase scpa s) := by
  have hwidth := nppas.isLt
  obtain ⟨cpa,hbody⟩ := Atc.commit_assign lookup scpa h.flags
  have hcalls : s.calls ++ callsAt lookup s.currentPpa =
      (List.range (k + 1)).flatMap fun i => callsAt lookup (itemAt increase start i) := by
    rw [List.range_succ,List.flatMap_append,List.flatMap_singleton,h.calls,h.currentPpa]
  rw [atcBody,hbody]
  refine ⟨?_,?_,?_,h.flags,hcalls⟩
  · show increase s.currentPpa = _
    rw [h.currentPpa,itemAt_succ]
  · show (if lookup s.currentPpa = .normalPage then (s.idx + 1) % 2^16 else s.idx) = _
    rw [h.currentPpa,h.idx,Nat.count_succ]
    by_cases hnormal : lookup (itemAt increase start k) = .normalPage
    · have hlt := hgo hnormal
      rw [if_pos hnormal,if_pos (show normalAt lookup increase start k from hnormal),Nat.mod_eq_of_lt (by omega)]
    · rw [if_neg hnormal,if_neg (show ¬ normalAt lookup increase start k from hnormal),Nat.add_zero]
  · intro j
    show (if lookup s.currentPpa = .normalPage then Function.update s.ppalist s.idx s.currentPpa
      else s.ppalist) j = _
    rw [h.currentPpa,h.idx,Nat.count_succ]
    by_cases hnormal : lookup (itemAt increase start k) = .normalPage
    · rw [if_pos hnormal,if_pos (show normalAt lookup increase start k from hnormal)]
      by_cases hj : j = Nat.count (normalAt lookup increase start) k
      · rw [hj,Function.update_self,if_pos (Nat.lt_succ_self _),Nat.nth_count hnormal]
      · have hiff : j < Nat.count (normalAt lookup increase start) k + 1 ↔
            j < Nat.count (normalAt lookup increase start) k := by omega
        rw [Function.update_of_ne hj,h.ppalist j]
        simp only [hiff]
    · rw [if_neg hnormal,if_neg (show ¬ normalAt lookup increase start k from hnormal),Nat.add_zero]
      exact h.ppalist j

/-- Before the page where it stops the loop goes on. -/
theorem count_lt_of_lt_nth (hrec : NormalRecurs lookup increase start) {n : Nat}
    (hk : k < Nat.nth (normalAt lookup increase start) n) (hnormal : normalAt lookup increase start k) :
    Nat.count (normalAt lookup increase start) k < n := by
  rw [← Nat.nth_count hnormal] at hk
  exact (Nat.nth_lt_nth hrec.infinite).mp hk

/-- The loop stops on the first normal page it does not need. -/
theorem Walked.loop (scpa : BitVec 32) (hrec : NormalRecurs lookup increase start) {m fuel : Nat}
    (h : Walked lookup increase start old k s)
    (hm : k + m = Nat.nth (normalAt lookup increase start) nppas.toNat) (hfuel : m < fuel) :
    ∃ s', atcLoop lookup increase scpa nppas fuel s = some s' ∧
      Walked lookup increase start old (Nat.nth (normalAt lookup increase start) nppas.toNat) s' := by
  induction m generalizing k s fuel with
  | zero =>
    obtain ⟨fuel,rfl⟩ := Nat.exists_eq_succ_of_ne_zero (Nat.ne_of_gt hfuel)
    have hk : k = Nat.nth (normalAt lookup increase start) nppas.toNat := hm
    have hnormal : lookup s.currentPpa = .normalPage := by
      rw [h.currentPpa,hk]
      exact Nat.nth_mem_of_infinite hrec.infinite nppas.toNat
    have hidx : nppas.toNat ≤ s.idx := by
      rw [h.idx,hk,Nat.count_nth_of_infinite hrec.infinite]
    rw [atcLoop,if_pos ⟨hnormal,hidx⟩]
    exact ⟨s,rfl,hk ▸ h⟩
  | succ m ih =>
    obtain ⟨fuel,rfl⟩ := Nat.exists_eq_succ_of_ne_zero (Nat.ne_of_gt (Nat.lt_of_le_of_lt (Nat.zero_le _) hfuel))
    have hgo := count_lt_of_lt_nth (k := k) (n := nppas.toNat) hrec (by omega)
    have hstay : ¬ (lookup s.currentPpa = .normalPage ∧ nppas.toNat ≤ s.idx) := by
      rintro ⟨hnormal,hidx⟩
      rw [h.currentPpa] at hnormal
      rw [h.idx] at hidx
      exact Nat.not_lt.mpr hidx (hgo hnormal)
    rw [atcLoop,if_neg hstay]
    exact ih (h.step hgo) (by omega) (by omega)

end Walk

section Assign

variable {π : Type*} {lookup : π → PgType} {increase : π → π}

/-- With enough iterations the loop of a call ends on the normal page behind those it hands out. -/
theorem atcAssignPpa_walked {bands : Nat → π} {band : Nat} (hrec : NormalRecurs lookup increase (bands band))
    (scpa : BitVec 32) (nppas : BitVec 16) (ppalist : Nat → π) {fuel : Nat}
    (hfuel : Nat.nth (normalAt lookup increase (bands band)) nppas.toNat < fuel) :
    ∃ s, atcAssignPpa lookup increase fuel bands band scpa nppas ppalist =
        some ⟨Function.update bands band s.currentPpa,s.ppalist,s.calls⟩ ∧
      Walked lookup increase (bands band) ppalist
        (Nat.nth (normalAt lookup increase (bands band)) nppas.toNat) s := by
  have hinit : Walked lookup increase (bands band) ppalist 0
      ⟨bands band,0,.host scpa,ppalist,false,false,false,[]⟩ := by
    refine ⟨rfl,?_,?_,⟨rfl,rfl,rfl⟩,rfl⟩
    · rw [Nat.count_zero]
    · intro j
      rw [Nat.count_zero,if_neg (Nat.not_lt_zero j)]
  obtain ⟨s,hloop,hwalked⟩ := hinit.loop scpa hrec (Nat.zero_add _) hfuel
  refine ⟨s,?_,hwalked⟩
  rw [atcAssignPpa,hloop]
  rfl

/-- A call hands out the next normal pages of its band and nothing else, and leaves the band on the
normal page behind them. -/
structure AssignsNext (lookup : π → PgType) (increase : π → π) (bands : Nat → π) (band n : Nat)
    (ppalist : Nat → π) (res : AtcResult π) : Prop where
  assigned : ∀ j, j < n → res.ppalist j = nthNormal lookup increase (bands band) j
  untouched : ∀ j, n ≤ j → res.ppalist j = ppalist j
  bands : res.bands = Function.update bands band (nthNormal lookup increase (bands band) n)

theorem atcAssignPpa_assignsNext {bands : Nat → π} {band : Nat}
    (hrec : NormalRecurs lookup increase (bands band)) (scpa : BitVec 32) (nppas : BitVec 16)
    (ppalist : Nat → π) {fuel : Nat}
    (hfuel : Nat.nth (normalAt lookup increase (bands band)) nppas.toNat < fuel) :
    ∃ res, atcAssignPpa lookup increase fuel bands band scpa nppas ppalist = some res ∧
      AssignsNext lookup increase bands band nppas.toNat ppalist res := by
  obtain ⟨s,hres,h⟩ := atcAssignPpa_walked hrec scpa nppas ppalist hfuel
  have hcount := Nat.count_nth_of_infinite hrec.infinite nppas.toNat
  refine ⟨_,hres,?_,?_,?_⟩
  · intro j hj
    show s.ppalist j = _
    rw [h.ppalist,hcount,if_pos hj]
    rfl
  · intro j hj
    show s.ppalist j = _
    rw [h.ppalist,hcount,if_neg (Nat.not_lt.mpr hj)]
  · show Function.update bands band s.currentPpa = _
    rw [h.currentPpa]
    rfl

/-- The arguments of a call. -/
structure AtcRequest (π : Type*) where
  band : Nat
  scpa : BitVec 32
  nppas : BitVec 16
  ppalist : Nat → π

/-- Calls one after another: the current pages in the end, and the pages each call hands out. -/
def atcRun (lookup : π → PgType) (increase : π → π) (fuel : Nat) (bands : Nat → π) :
    List (AtcRequest π) → Option ((Nat → π) × List (Nat × List π))
  | [] => some (bands,[])
  | r :: rs => do
    let res ← atcAssignPpa lookup increase fuel bands r.band r.scpa r.nppas r.ppalist
    let (last,lists) ← atcRun lookup increase fuel res.bands rs
    return (last,(r.band,(List.range r.nppas.toNat).map res.ppalist) :: lists)

/-- All pages handed out for a band. -/
def pagesOf (band : Nat) (lists : List (Nat × List π)) : List π :=
  (lists.filter fun l => l.1 = band).flatMap Prod.snd

/-- Number of pages requested for a band. -/
def requestedOf (band : Nat) (rs : List (AtcRequest π)) : Nat :=
  ((rs.filter fun r => r.band = band).map fun r => r.nppas.toNat).sum

/-- Normal pages still recur behind those handed out. -/
theorem NormalRecurs.update {bands : Nat → π} (hrec : ∀ band, NormalRecurs lookup increase (bands band))
    (band n : Nat) (band' : Nat) : NormalRecurs lookup increase
      (Function.update bands band (nthNormal lookup increase (bands band) n) band') := by
  by_cases hband : band' = band
  · rw [hband,Function.update_self]
    exact Recurs.later (hrec band) _
  · rw [Function.update_of_ne hband]
    exact hrec band'

/-- The pages of a band continue behind those of one call. -/
theorem map_nthNormal_add {start : π} (hrec : NormalRecurs lookup increase start) (n m : Nat) :
    (List.range n).map (nthNormal lookup increase start) ++
        (List.range m).map (nthNormal lookup increase (nthNormal lookup increase start n)) =
      (List.range (n + m)).map (nthNormal lookup increase start) := by
  rw [List.range_add,List.map_append,List.map_map]
  congr 1
  apply List.map_congr_left
  intro j _
  exact nthItem_nthItem hrec n j

/-- Over any sequence of calls every band hands out its normal pages in order. -/
theorem atcRun_pages (rs : List (AtcRequest π)) {bands : Nat → π}
    (hrec : ∀ band, NormalRecurs lookup increase (bands band)) :
    ∃ fuel₀, ∀ fuel, fuel₀ ≤ fuel → ∃ last lists,
      atcRun lookup increase fuel bands rs = some (last,lists) ∧
      ∀ band, pagesOf band lists =
        (List.range (requestedOf band rs)).map (nthNormal lookup increase (bands band)) := by
  induction rs generalizing bands with
  | nil => exact ⟨0,fun fuel _ => ⟨bands,[],rfl,fun band => rfl⟩⟩
  | cons r rs ih =>
    obtain ⟨fuel₁,hrest⟩ := ih (NormalRecurs.update hrec r.band r.nppas.toNat)
    refine ⟨max fuel₁ (Nat.nth (normalAt lookup increase (bands r.band)) r.nppas.toNat + 1),?_⟩
    intro fuel hfuel
    rw [Nat.max_le] at hfuel
    obtain ⟨res,hres,hnext⟩ := atcAssignPpa_assignsNext (hrec r.band) r.scpa r.nppas r.ppalist hfuel.2
    obtain ⟨last,lists,hrun,hpages⟩ := hrest fuel hfuel.1
    rw [← hnext.bands] at hrun
    have hfirst : (List.range r.nppas.toNat).map res.ppalist =
        (List.range r.nppas.toNat).map (nthNormal lookup increase (bands r.band)) :=
      List.map_congr_left fun j hj => hnext.assigned j (List.mem_range.mp hj)
    refine ⟨last,(r.band,(List.range r.nppas.toNat).map res.ppalist) :: lists,?_,?_⟩
    · rw [atcRun,hres,Option.bind_eq_bind,Option.bind_some,hrun]
      rfl
    · intro band
      have hpages := hpages band
      by_cases hband : r.band = band
      · subst hband
        rw [Function.update_self] at hpages
        rw [pagesOf,List.filter_cons_of_pos (by simp),List.flatMap_cons,requestedOf,
          List.filter_cons_of_pos (by simp),List.map_cons,List.sum_cons,hfirst,← map_nthNormal_add (hrec r.band)]
        congr 1
      · rw [Function.update_of_ne (Ne.symm hband)] at hpages
        rw [pagesOf,List.filter_cons_of_neg (by simp [hband]),requestedOf,
          List.filter_cons_of_neg (by simp [hband])]
        exact hpages

/-- Where normal pages recur, a call ends, hands out exactly the next normal pages and stops on the one
behind them. A sequence of calls gives every band its normal pages in order, without gaps, and no
page twice if the order never comes back to a page. -/
theorem atc_assigns_next_normal {bands : Nat → π} (hrec : ∀ band, NormalRecurs lookup increase (bands band)) :
    (∀ band scpa (nppas : BitVec 16) ppalist, ∃ fuel₀, ∀ fuel, fuel₀ ≤ fuel →
      ∃ res, atcAssignPpa lookup increase fuel bands band scpa nppas ppalist = some res ∧
        AssignsNext lookup increase bands band nppas.toNat ppalist res) ∧
    ∀ rs, ∃ fuel₀, ∀ fuel, fuel₀ ≤ fuel → ∃ last lists,
      atcRun lookup increase fuel bands rs = some (last,lists) ∧
      ∀ band, pagesOf band lists =
          (List.range (requestedOf band rs)).map (nthNormal lookup increase (bands band)) ∧
        (Function.Injective (itemAt increase (bands band)) → (pagesOf band lists).Nodup) := by
  constructor
  · intro band scpa nppas ppalist
    exact ⟨_,fun fuel hfuel => atcAssignPpa_assignsNext (hrec band) scpa nppas ppalist hfuel⟩
  · intro rs
    obtain ⟨fuel₀,hrun⟩ := atcRun_pages rs hrec
    refine ⟨fuel₀,fun fuel hfuel => ?_⟩
    obtain ⟨last,lists,hlast,hpages⟩ := hrun fuel hfuel
    refine ⟨last,lists,hlast,fun band => ⟨hpages band,fun hinj => ?_⟩⟩
    rw [hpages band]
    exact List.nodup_range.map (nthItem_injective (hrec band) hinj)

/-- Pages 0, 1, 2, ... of which every third is normal, the others being log and bad pages. -/
def everyThird (ppa : Nat) : PgType :=
  if ppa % 3 = 0 then .normalPage else if ppa % 3 = 1 then .ftlLogPage else .badblkPage

theorem everyThird_recurs (start : Nat) : NormalRecurs everyThird Nat.succ start := by
  intro i
  refine ⟨i + (3 - (start + i) % 3),by omega,?_⟩
  show everyThird (Nat.succ^[_] start) = _
  rw [Nat.succ_iterate,everyThird,if_pos (by omega)]

theorem atc_assigns_next_normal_every_third : ∃ fuel res,
    atcAssignPpa everyThird Nat.succ fuel (fun _ => 1) 0 0 2#16 (fun _ => 0) = some res ∧
      AssignsNext everyThird Nat.succ (fun _ => 1) 0 2 (fun _ => 0) res := by
  have hrec (band : Nat) : NormalRecurs everyThird Nat.succ ((fun _ => 1) band) := everyThird_recurs 1
  obtain ⟨fuel,hfuel⟩ := (atc_assigns_next_normal hrec).1 0 0 2#16 (fun _ => 0)
  exact ⟨fuel,hfuel fuel (Nat.le_refl _)⟩

end Assign

section Commits

variable {π : Type*} {lookup : π → PgType} {increase : π → π}

/-- The pages on which the walk stood when a function was called. -/
def callPages (fn : AtcCall) (calls : List (AtcCall × π)) : List π :=
  (calls.filter fun c => c.1 = fn).map Prod.snd

/-- Every special page among those traversed is committed once, when the walk stands on it, and the
checkpoint monitor runs once for each log page committed. -/
structure CommitsSpecial (lookup : π → PgType) (pages : List π) (calls : List (AtcCall × π)) : Prop where
  log : callPages .commitLogPage calls = pages.filter fun ppa => lookup ppa = .ftlLogPage
  raif1 : callPages .commitRaif1 calls = pages.filter fun ppa => lookup ppa = .raif1Page
  raif2 : callPages .commitRaif2 calls = pages.filter fun ppa => lookup ppa = .raif2Page
  monitor : callPages .ckptMonitor calls = callPages .commitLogPage calls

theorem callPages_cons (fn : AtcCall) (c : AtcCall × π) (calls : List (AtcCall × π)) :
    callPages fn (c :: calls) = if c.1 = fn then c.2 :: callPages fn calls else callPages fn calls := by
  rw [callPages,List.filter_cons]
  split <;> simp_all [callPages]

/-- What is called along a walk: log pages are committed, parity pages are not. -/
theorem callPages_walk (lookup : π → PgType) (pages : List π) :
    callPages .commitLogPage (pages.flatMap (callsAt lookup)) =
        (pages.filter fun ppa => lookup ppa = .ftlLogPage) ∧
      callPages .ckptMonitor (pages.flatMap (callsAt lookup)) =
        (pages.filter fun ppa => lookup ppa = .ftlLogPage) ∧
      callPages .commitRaif1 (pages.flatMap (callsAt lookup)) = [] ∧
      callPages .commitRaif2 (pages.flatMap (callsAt lookup)) = [] := by
  induction pages with
  | nil => exact ⟨rfl,rfl,rfl,rfl⟩
  | cons ppa pages ih =>
    obtain ⟨hlog,hmonitor,hraif1,hraif2⟩ := ih
    rw [List.flatMap_cons,callsAt]
    by_cases htype : lookup ppa = .ftlLogPage
    · simp [htype,callPages_cons,hlog,hmonitor,hraif1,hraif2]
    · simp [htype,callPages_cons,hlog,hmonitor,hraif1,hraif2]

/-- The commits are complete exactly if no parity page is among those traversed. -/
theorem commitsSpecial_iff (pages : List π) : CommitsSpecial lookup pages (pages.flatMap (callsAt lookup)) ↔
    ∀ ppa ∈ pages, lookup ppa ≠ .raif1Page ∧ lookup ppa ≠ .raif2Page := by
  obtain ⟨hlog,hmonitor,hraif1,hraif2⟩ := callPages_walk lookup pages
  constructor
  · intro h ppa hmem
    have h1 := hraif1.symm.trans h.raif1
    have h2 := hraif2.symm.trans h.raif2
    exact ⟨by simpa using List.filter_eq_nil_iff.mp h1.symm ppa hmem,
      by simpa using List.filter_eq_nil_iff.mp h2.symm ppa hmem⟩
  · intro h
    refine ⟨hlog,?_,?_,hmonitor.trans hlog.symm⟩
    · rw [hraif1,List.filter_eq_nil_iff.mpr fun ppa hmem => by simp [(h ppa hmem).1]]
    · rw [hraif2,List.filter_eq_nil_iff.mpr fun ppa hmem => by simp [(h ppa hmem).2]]

/-- The pages for which the loop body runs, as the loop of a call stops on normal page number `n`. -/
noncomputable def traversed (lookup : π → PgType) (increase : π → π) (start : π) (n : Nat) : List π :=
  (List.range (Nat.nth (normalAt lookup increase start) n)).map (itemAt increase start)

/-- `flush_raif1` and `flush_raif2` are never set: a call commits every special page it traverses exactly
if there is no parity page among them. -/
theorem special_pages_committed_iff {bands : Nat → π} {band : Nat}
    (hrec : NormalRecurs lookup increase (bands band)) (scpa : BitVec 32) (nppas : BitVec 16)
    (ppalist : Nat → π) : ∃ fuel₀, ∀ fuel, fuel₀ ≤ fuel →
      ∃ res, atcAssignPpa lookup increase fuel bands band scpa nppas ppalist = some res ∧
        (CommitsSpecial lookup (traversed lookup increase (bands band) nppas.toNat) res.calls ↔
          ∀ ppa ∈ traversed lookup increase (bands band) nppas.toNat,
            lookup ppa ≠ .raif1Page ∧ lookup ppa ≠ .raif2Page) := by
  refine ⟨Nat.nth (normalAt lookup increase (bands band)) nppas.toNat + 1,fun fuel hfuel => ?_⟩
  obtain ⟨s,hres,h⟩ := atcAssignPpa_walked hrec scpa nppas ppalist hfuel
  refine ⟨_,hres,?_⟩
  have hcalls : s.calls =
      (traversed lookup increase (bands band) nppas.toNat).flatMap (callsAt lookup) := by
    rw [h.calls,traversed,List.flatMap_map]
  show CommitsSpecial lookup _ s.calls ↔ _
  rw [hcalls]
  exact commitsSpecial_iff _

/-- Without parity pages all log pages are committed. -/
theorem special_pages_committed_every_third : ∃ fuel res,
    atcAssignPpa everyThird Nat.succ fuel (fun _ => 1) 0 0 2#16 (fun _ => 0) = some res ∧
      CommitsSpecial everyThird (traversed everyThird Nat.succ 1 2) res.calls := by
  obtain ⟨fuel,hfuel⟩ := @special_pages_committed_iff Nat everyThird Nat.succ (fun _ => 1) 0
    (everyThird_recurs 1) 0 2#16 (fun _ => 0)
  obtain ⟨res,hres,hiff⟩ := hfuel fuel (Nat.le_refl _)
  refine ⟨fuel,res,hres,hiff.mpr ?_⟩
  intro ppa _
  unfold everyThird
  split
  · decide
  · split <;> decide

/-- Page 1 is a parity page, all others are normal. -/
def secondParity (ppa : Nat) : PgType := if ppa = 1 then .raif1Page else .normalPage

theorem traversed_secondParity : traversed secondParity Nat.succ 0 2 = [0,1,2] := by
  have hnormal : normalAt secondParity Nat.succ 0 3 := rfl
  have hcount : Nat.count (normalAt secondParity Nat.succ 0) 3 = 2 := by decide
  have hnth := Nat.nth_count hnormal
  rw [hcount] at hnth
  rw [traversed,hnth]
  rfl

/-- For two pages from page 0 on the walk crosses the parity page and does not commit it. -/
theorem special_pages_parity_not_committed : ∃ res,
    atcAssignPpa secondParity Nat.succ 4 (fun _ => 0) 0 0 2#16 (fun _ => 9) = some res ∧
      (res.ppalist 0,res.ppalist 1,res.ppalist 2,res.bands 0) = (0,2,9,3) ∧
      1 ∈ traversed secondParity Nat.succ 0 2 ∧ callPages .commitRaif1 res.calls = [] ∧
      ¬ CommitsSpecial secondParity (traversed secondParity Nat.succ 0 2) res.calls := by
  refine ⟨_,rfl,rfl,?_,rfl,?_⟩
  · rw [traversed_secondParity]
    decide
  · intro h
    have hraif1 := h.raif1
    rw [traversed_secondParity] at hraif1
    exact absurd hraif1 (by decide)

end Commits

end Sdssd.Fw
