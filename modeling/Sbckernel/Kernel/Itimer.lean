import Sbckernel.Kernel.Timer

/-!
# Interval timers (`kernel/itimer.c`)

`setitimer` turns a `timeval` into ticks with `tvtojiffies`, and `getitimer`
turns ticks back with `jiffiestotv`. Both fields are taken as unsigned words.
-/

namespace Sbckernel.Kernel

def hz : ULong := 100

/-- `ULONG_MAX`. -/
def ulongMax : ULong := 0xffffffff

structure Timeval where
  tvSec : ULong
  tvUsec : ULong

def tvtojiffies (value : Timeval) : ULong :=
  let sec := value.tvSec
  let usec := value.tvUsec
  if sec > ulongMax / hz then ulongMax
  else
    let usec := usec + (1000000 / hz - 1)
    let usec := usec / (1000000 / hz)
    hz * sec + usec

def jiffiestotv (jiffies : ULong) : Timeval where
  tvUsec := jiffies % hz * (1000000 / hz)
  tvSec := jiffies / hz

end Sbckernel.Kernel
