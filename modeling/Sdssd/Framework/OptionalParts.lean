import Mathlib.Data.List.Basic
import Mathlib.Logic.Nontrivial.Defs

/-!
# Messages with optional parts

A message has one part per flag, and only the flagged parts are transmitted, one behind the other. A
receiver that knows the flags finds each part behind the flagged ones in front of it. A copy whose two
cursors move together transmits the first parts instead, as many as are flagged.
-/

namespace Sdssd.Framework

variable {α : Type*}

/-- The flagged parts in their order. -/
def compact : List Bool → List α → List α
  | true :: flags, part :: parts => part :: compact flags parts
  | false :: flags, _ :: parts => compact flags parts
  | _, _ => []

/-- The number of flagged parts in front of part `i`. -/
def rank (flags : List Bool) (i : Nat) : Nat := (flags.take i).count true

/-- Every part in front of a flagged one is flagged. -/
def NoGap (flags : List Bool) : Prop :=
  ∀ i j : Nat, j < i → flags[i]? = some true → flags[j]? = some true

/-- What a receiver reads from place `i` on: a word for each flag that is set. -/
def receiveParts (mem : Nat → α) : Nat → List Bool → List (Option α)
  | _, [] => []
  | i, false :: flags => none :: receiveParts mem i flags
  | i, true :: flags => some (mem i) :: receiveParts mem (i+1) flags

/-- The flagged parts at their places. -/
def flaggedParts (flags : List Bool) (parts : List α) : List (Option α) :=
  List.zipWith (fun flag part => if flag then some part else none) flags parts

/-- The two cursors of a copy from a message, with the memory it goes to. -/
structure Cursors (α : Type*) where
  port : Nat
  msg : Nat
  mem : Nat → α

/-- Copy `n` words and move both cursors behind them. -/
def Cursors.copy (msg : Nat → α) (c : Cursors α) (n : Nat) : Cursors α where
  port := c.port + n
  msg := c.msg + n
  mem i := if c.port ≤ i ∧ i < c.port + n then msg (c.msg + (i - c.port)) else c.mem i

/-- Copy one word if it is flagged. -/
def Cursors.copyIf (msg : Nat → α) (c : Cursors α) (flag : Bool) : Cursors α :=
  if flag then c.copy msg 1 else c

section Copy

variable {msg : Nat → α} {c : Cursors α}

theorem Cursors.copy_zero : c.copy msg 0 = c := by
  obtain ⟨port,cursor,mem⟩ := c
  simp only [copy,Nat.add_zero,Cursors.mk.injEq,true_and]
  funext i
  rw [if_neg (by omega)]

theorem Cursors.copy_copy (n m : Nat) : (c.copy msg n).copy msg m = c.copy msg (n+m) := by
  simp only [copy,Nat.add_assoc,Cursors.mk.injEq,true_and]
  funext i
  by_cases hlow : c.port ≤ i ∧ i < c.port + n
  · rw [if_neg (by omega),if_pos hlow,if_pos (by omega)]
  · by_cases hhigh : c.port + n ≤ i ∧ i < c.port + (n + m)
    · rw [if_pos hhigh,if_pos (by omega)]
      congr 1
      omega
    · rw [if_neg hhigh,if_neg hlow,if_neg (by omega)]

/-- Absent parts move neither cursor, so the words copied are consecutive ones. -/
theorem Cursors.foldl_copyIf (flags : List Bool) :
    flags.foldl (copyIf msg) c = c.copy msg (flags.count true) := by
  induction flags generalizing c with
  | nil => exact copy_zero.symm
  | cons flag flags ih =>
    rw [List.foldl_cons,ih]
    cases flag with
    | true => rw [copyIf,if_pos rfl,copy_copy,List.count_cons_self,Nat.add_comm]
    | false => rw [copyIf,if_neg (by decide),List.count_cons_of_ne (by decide)]

end Copy

section Rank

variable {flags : List Bool} {parts : List α} {i : Nat}

@[simp] theorem rank_zero : rank flags 0 = 0 := by simp [rank]

theorem rank_cons_true : rank (true :: flags) (i+1) = rank flags i + 1 := by
  rw [rank,List.take_succ_cons,List.count_cons_self,rank]

theorem rank_cons_false : rank (false :: flags) (i+1) = rank flags i := by
  rw [rank,List.take_succ_cons,List.count_cons_of_ne (by decide),rank]

theorem rank_lt_count (h : flags[i]? = some true) : rank flags i < flags.count true := by
  induction flags generalizing i with
  | nil => simp at h
  | cons flag flags ih =>
    cases i with
    | zero =>
      obtain rfl : flag = true := by simpa using h
      simp
    | succ i =>
      rw [List.getElem?_cons_succ] at h
      have hi := ih h
      cases flag with
      | true =>
        rw [rank_cons_true,List.count_cons_self]
        omega
      | false =>
        rw [rank_cons_false,List.count_cons_of_ne (by decide)]
        exact hi

/-- Every number below that of the flagged parts is the rank of one. -/
theorem exists_rank {r : Nat} (h : r < flags.count true) : ∃ i, flags[i]? = some true ∧ rank flags i = r := by
  induction flags generalizing r with
  | nil => simp at h
  | cons flag flags ih =>
    cases flag with
    | true =>
      cases r with
      | zero => exact ⟨0,rfl,rank_zero⟩
      | succ r =>
        rw [List.count_cons_self] at h
        obtain ⟨i,hi,hr⟩ := ih (Nat.lt_of_succ_lt_succ h)
        exact ⟨i+1,hi,by rw [rank_cons_true,hr]⟩
    | false =>
      rw [List.count_cons_of_ne (by decide)] at h
      obtain ⟨i,hi,hr⟩ := ih h
      exact ⟨i+1,hi,by rw [rank_cons_false,hr]⟩

theorem length_compact (hlen : flags.length = parts.length) :
    (compact flags parts).length = flags.count true := by
  induction flags generalizing parts with
  | nil => simp [compact]
  | cons flag flags ih =>
    cases parts with
    | nil => simp at hlen
    | cons part parts =>
      have hlen' : flags.length = parts.length := by simpa using hlen
      cases flag with
      | true => rw [compact,List.length_cons,ih hlen',List.count_cons_self]
      | false => rw [compact,ih hlen',List.count_cons_of_ne (by decide)]

/-- A flagged part stands at its rank. -/
theorem compact_rank (hlen : flags.length = parts.length) (h : flags[i]? = some true) :
    (compact flags parts)[rank flags i]? = parts[i]? := by
  induction flags generalizing parts i with
  | nil => simp at h
  | cons flag flags ih =>
    cases parts with
    | nil => simp at hlen
    | cons part parts =>
      have hlen' : flags.length = parts.length := by simpa using hlen
      cases i with
      | zero =>
        obtain rfl : flag = true := by simpa using h
        rw [rank_zero,compact]
        rfl
      | succ i =>
        rw [List.getElem?_cons_succ] at h
        cases flag with
        | true => rw [rank_cons_true,compact,List.getElem?_cons_succ,List.getElem?_cons_succ,ih hlen' h]
        | false => rw [rank_cons_false,compact,List.getElem?_cons_succ,ih hlen' h]

/-- The first parts are the flagged ones when each flagged part equals the one at its rank. -/
theorem take_eq_compact_iff (hlen : flags.length = parts.length) :
    parts.take (flags.count true) = compact flags parts ↔
      ∀ i, flags[i]? = some true → parts[rank flags i]? = parts[i]? := by
  constructor
  · intro heq i hi
    rw [← compact_rank hlen hi,← heq,List.getElem?_take_of_lt (rank_lt_count hi)]
  · intro h
    apply List.ext_getElem?
    intro r
    rcases Nat.lt_or_ge r (flags.count true) with hr | hr
    · obtain ⟨i,hi,rfl⟩ := exists_rank hr
      rw [List.getElem?_take_of_lt hr,h i hi,compact_rank hlen hi]
    · have htake : (parts.take (flags.count true)).length ≤ r := by
        rw [List.length_take]
        omega
      have hcompact : (compact flags parts).length ≤ r := by
        rw [length_compact hlen]
        exact hr
      rw [List.getElem?_eq_none htake,List.getElem?_eq_none hcompact]

/-- Without gaps the rank of a flagged part is its place. -/
theorem noGap_iff_rank : NoGap flags ↔ ∀ i, flags[i]? = some true → rank flags i = i := by
  have hall (i : Nat) (hi : flags[i]? = some true) : rank flags i = i ↔ ∀ b ∈ flags.take i, true = b := by
    have hlt : i < flags.length := (List.getElem?_eq_some_iff.mp hi).1
    have hlen : (flags.take i).length = i := List.length_take_of_le (Nat.le_of_lt hlt)
    rw [rank,← List.count_eq_length,hlen]
  constructor
  · intro h i hi
    rw [hall i hi]
    intro b hb
    obtain ⟨j,hj⟩ := List.mem_iff_getElem?.mp hb
    rw [List.getElem?_take] at hj
    split at hj
    case isTrue hji => exact Option.some.inj ((h i j hji hi).symm.trans hj)
    case isFalse => cases hj
  · intro h i j hji hi
    have hlt : j < flags.length := Nat.lt_trans hji (List.getElem?_eq_some_iff.mp hi).1
    have hmem : flags[j] ∈ flags.take i := by
      apply List.mem_iff_getElem?.mpr
      exact ⟨j,by rw [List.getElem?_take_of_lt hji,List.getElem?_eq_getElem hlt]⟩
    rw [List.getElem?_eq_getElem hlt,← (hall i hi).mp (h i hi) _ hmem]

/-- All messages come through exactly with flags that have no gap. -/
theorem forall_take_eq_compact_iff [Nontrivial α] :
    (∀ parts : List α, flags.length = parts.length →
      parts.take (flags.count true) = compact flags parts) ↔ NoGap flags := by
  obtain ⟨a,b,hab⟩ := exists_pair_ne α
  rw [noGap_iff_rank]
  constructor
  · intro h i hi
    have hlt : i < flags.length := (List.getElem?_eq_some_iff.mp hi).1
    -- part `i` differs from all others
    let parts : List α := (List.replicate flags.length a).set i b
    have hlen : flags.length = parts.length := by simp [parts]
    have hranked := (take_eq_compact_iff hlen).mp (h parts hlen) i hi
    by_contra hne
    have hrank : rank flags i < flags.length :=
      Nat.lt_of_lt_of_le (rank_lt_count hi) List.count_le_length
    rw [List.getElem?_set_self (by simpa using hlt),List.getElem?_set_ne (Ne.symm hne),
      List.getElem?_replicate_of_lt hrank] at hranked
    exact hab (Option.some.inj hranked)
  · intro h parts hlen
    rw [take_eq_compact_iff hlen]
    intro i hi
    rw [h i hi]

/-- A receiver of the flagged parts finds each at its place. -/
theorem receiveParts_eq {mem : Nat → α} {n : Nat} (hlen : flags.length = parts.length)
    (h : ∀ r, r < flags.count true → (compact flags parts)[r]? = some (mem (n + r))) :
    receiveParts mem n flags = flaggedParts flags parts := by
  induction flags generalizing parts n with
  | nil => simp [receiveParts,flaggedParts]
  | cons flag flags ih =>
    cases parts with
    | nil => simp at hlen
    | cons part parts =>
      have hlen' : flags.length = parts.length := by simpa using hlen
      rw [flaggedParts,List.zipWith_cons_cons]
      cases flag with
      | true =>
        rw [compact,List.count_cons_self] at h
        have hfirst : part = mem n := by simpa using h 0 (Nat.succ_pos _)
        rw [receiveParts,if_pos rfl,hfirst,ih hlen' ?_,flaggedParts]
        intro r hr
        have hnext := h (r+1) (Nat.succ_lt_succ hr)
        rw [List.getElem?_cons_succ] at hnext
        rw [hnext,Nat.add_assoc,Nat.add_comm 1 r]
      | false =>
        rw [compact,List.count_cons_of_ne (by decide)] at h
        rw [receiveParts,if_neg (by decide),ih hlen' h,flaggedParts]

end Rank

end Sdssd.Framework
