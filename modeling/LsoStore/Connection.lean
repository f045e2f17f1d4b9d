import LsoStore.ServerApi

/-!
# Connecting

`openConnection`. What `connect` returns is an infinite sequence given from
outside. Times are `long`s: they are integers here, and a budget that grows
beyond the largest `long` has no meaning in C. The loop has a bound on its
rounds, as the client's other loops.
-/

namespace LsoStore

/-- What one `connect` returned, with `errno` where it failed. -/
inductive Connect where
  | success
  | enoent
  | econnrefused
  | failed
deriving DecidableEq

/-- `errno == ENOENT || errno == ECONNREFUSED` -/
def Connect.tryAgain : Connect → Bool
  | .enoent | .econnrefused => true
  | _ => false

/-- How a call ended: with a result after a number of attempts, with an overflow
of the budget, or not within its rounds. -/
inductive Connecting where
  | returned (r : Int) (attempts : Nat)
  | overflow
  | running
deriving DecidableEq

structure TimeSpec where
  tvSec : Int
  tvNsec : Int

/-- `tv_nsec + tv_sec * 1000000000L` -/
def TimeSpec.nsec (t : TimeSpec) : Int := t.tvNsec + t.tvSec * 1000000000

def longMax : Int := 2 ^ 63 - 1

/-- `inter_requests_time`, from an `int`. -/
def interRequestsTime (msec : BitVec 32) : TimeSpec :=
  let tvNsec := msec.toInt.tmod 1000 * 1000000
  ⟨msec.toInt.tdiv 1000, if tvNsec > 999999999 ∨ tvNsec < 0 then 500000000 else tvNsec⟩

/-- The loop of `openConnection` from attempt `n` on, and what follows it. -/
def openConnectionLoop (connect : Nat → Connect) (interRequestsTime : TimeSpec) :
    Nat → Nat → Int → Connecting
  | 0, _, _ => .running
  | rounds + 1, n, remainingTime =>
      if connect n ≠ .success ∧ remainingTime > 0 then
        if (connect n).tryAgain then
          let remainingTime := remainingTime - interRequestsTime.nsec
          if remainingTime > longMax then .overflow
          else openConnectionLoop connect interRequestsTime rounds (n + 1) remainingTime
        else .returned (-1) (n + 1)
      else if remainingTime > 0 then .returned 0 (n + 1)
      else .returned (-1) (n + 1)

/-- `socket` says whether there was a socket to connect. -/
def openConnection (sockname : Option CStr) (msec : BitVec 32) (abstime : TimeSpec)
    (socket : Bool) (connect : Nat → Connect) (rounds : Nat) : Connecting :=
  if sockname.isNone then .returned (-1) 0
  else if !socket then .returned (-1) 0
  else openConnectionLoop connect (interRequestsTime msec) rounds 0 abstime.nsec

end LsoStore
