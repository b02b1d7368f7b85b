import Mathlib.Algebra.Group.Nat.Defs
import Mathlib.Data.Nat.Log

/-!
# The rate limiter

`pblk-rl.c` bounds how much of the write buffer user and garbage collection I/O may fill, by the
number of free blocks.
-/

namespace Sdssd.Pblk

/-- `struct pblk_rl`. -/
structure Rl where
  highPw : Nat
  lowPw : Nat
  rbWindowsPw : Nat
  rbBudget : Int
  rbUserMax : Int
  rbUserCnt : Int
  rbGcMax : Int
  rbGcRsv : Int
  rbGcCnt : Int
  rbUserActive : Bool
  freeBlocks : Nat
  deriving DecidableEq, Repr

/-- `PBLK_USER_HIGH_THRS`. -/
def userHighThrs : Nat := 4

/-- `PBLK_USER_LOW_THRS`. -/
def userLowThrs : Nat := 50

/-- `PBLK_MAX_REQ_ADDRS` and its logarithm. -/
def maxReqAddrs : Nat := 64

def maxReqAddrsPw : Nat := 6

/-- The kernel's `get_count_order`: the exponent of the least power of two not below `n`. -/
def getCountOrder (n : Nat) : Nat := Nat.clog 2 n

inductive RlAction
  | startGc
  | stopGc
  deriving DecidableEq, Repr

def pblkRlUserMayInsert (rl : Rl) (nrEntries : Nat) : Bool := !(rl.rbUserCnt + nrEntries > rl.rbUserMax)

/-- Without user I/O the collector may take all of the buffer. -/
def pblkRlGcMayInsert (rl : Rl) (nrEntries : Nat) : Bool :=
  !(rl.rbGcCnt + nrEntries > rl.rbGcMax && rl.rbUserActive)

def pblkRlUserIn (rl : Rl) (nrEntries : Nat) : Rl :=
  { rl with rbUserCnt := rl.rbUserCnt + nrEntries, rbUserActive := true }

def pblkRlGcIn (rl : Rl) (nrEntries : Nat) : Rl := { rl with rbGcCnt := rl.rbGcCnt + nrEntries }

def pblkRlOut (rl : Rl) (nrUser nrGc : Nat) : Rl :=
  { rl with rbUserCnt := rl.rbUserCnt - nrUser, rbGcCnt := rl.rbGcCnt - nrGc }

/-- The shift by a negative number is undefined. -/
def pblkRlUpdateRates (rl : Rl) (max : Int) : Option (Rl × RlAction) :=
  if 2 ^ rl.highPw ≤ rl.freeBlocks then
    some ({ rl with rbUserMax := max - rl.rbGcRsv, rbGcMax := rl.rbGcRsv },.stopGc)
  else if 2 ^ rl.lowPw < rl.freeBlocks then
    if rl.highPw < rl.rbWindowsPw then none
    else
      let userWindows := rl.freeBlocks >>> (rl.highPw - rl.rbWindowsPw)
      let userMax : Int := (userWindows <<< maxReqAddrsPw : Nat)
      some ({ rl with rbUserMax := userMax, rbGcMax := Max.max (max - userMax) rl.rbGcRsv },.startGc)
  else some ({ rl with rbUserMax := 0, rbGcMax := max },.startGc)

def pblkRlSetGcRsc (rl : Rl) (rsv : Int) : Rl := { rl with rbGcRsv := rsv, rbGcMax := rsv }

def pblkRlFreeLinesInc (rl : Rl) (blkInLine : Nat) : Option (Rl × RlAction) :=
  pblkRlUpdateRates { rl with freeBlocks := rl.freeBlocks + blkInLine } rl.rbBudget

def pblkRlFreeLinesDec (rl : Rl) (blkInLine : Nat) : Option (Rl × RlAction) :=
  pblkRlUpdateRates { rl with freeBlocks := (rl.freeBlocks + 2 ^ 64 - blkInLine) % 2 ^ 64 } rl.rbBudget

def pblkRlGcThrs (rl : Rl) : Nat := 2 ^ rl.highPw + 1

def pblkRlUTimer (rl : Rl) : Rl := { rl with rbUserActive := false }

/-- The reservation for the collector is not set here; the record was cleared when it was allocated. -/
def pblkRlInit (totalBlocks freeBlocks budget : Nat) : Rl :=
  { highPw := getCountOrder (totalBlocks / userHighThrs)
    lowPw := getCountOrder (totalBlocks / userLowThrs)
    rbWindowsPw := getCountOrder (budget / maxReqAddrs)
    rbBudget := budget, rbUserMax := budget, rbUserCnt := 0, rbGcMax := 0, rbGcRsv := 0, rbGcCnt := 0
    rbUserActive := false, freeBlocks := freeBlocks }

end Sdssd.Pblk
