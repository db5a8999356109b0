import Yalibct.Machine.Heap

/-! # Lazy cycle detection

One directory is recorded at a time: the current one whenever the number of descents is a power of
two.
-/

namespace Yalibct.CycleCheck

open Machine

structure DevIno where
  dev : ℕ
  ino : ℕ
deriving DecidableEq

/-- `SAME_INODE` -/
def sameInode (a b : DevIno) : Bool := a.ino == b.ino && a.dev == b.dev

/-- `CC_MAGIC` -/
def ccMagic : ℕ := 9827862

structure CycleCheckState where
  devIno : DevIno
  chdirCounter : ℕ
  magic : ℕ

/-- `cycle_check_init`, which does not set the recorded directory. -/
def cycleCheckInit (state : CycleCheckState) : CycleCheckState :=
  { state with chdirCounter := 0, magic := ccMagic }

/-- `is_zero_or_power_of_two`; what 0 wraps to is masked away. -/
def isZeroOrPowerOfTwo (i : ℕ) : Bool := i &&& (i - 1) == 0

/-- `cycle_check` -/
def cycleCheck (state : CycleCheckState) (sb : DevIno) : Except Fault (Bool × CycleCheckState) :=
  if state.magic ≠ ccMagic then .error .aborted
  else if state.chdirCounter ≠ 0 ∧ sameInode sb state.devIno then .ok (true, state)
  else
    let state := { state with chdirCounter := (state.chdirCounter + 1) % 2 ^ 64 }
    if isZeroOrPowerOfTwo state.chdirCounter then
      if state.chdirCounter = 0 then .ok (true, state) else .ok (false, { state with devIno := sb })
    else .ok (false, state)

/-- `CYCLE_CHECK_REFLECT_CHDIR_UP` -/
def reflectChdirUp (state : CycleCheckState) (dir subdir : DevIno) : Except Fault CycleCheckState :=
  if state.chdirCounter = 0 then .error .aborted
  else if sameInode state.devIno subdir then .ok { state with devIno := dir }
  else .ok state

end Yalibct.CycleCheck
