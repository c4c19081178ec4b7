import Mathlib.Logic.Function.Basic
import Wazn.Model.Median

/-!
# The rolling median (`epee/include/rolling_median.h`)

`rolling_median_t<Item>` keeps the median of the last `N` values inserted. The values sit in
the circular queue `data`; the array `heap` holds indexes into `data`, and `pos` the slot of
each index. The slots from `-(N / 2)` to `(N - 1) / 2` hold three parts: the median at slot
`0`, a max heap of the values below it at the slots `-1, -2, …`, and a min heap of the values
above it at the slots `1, 2, …`. The parent of slot `i` is `i / 2`, C's division rounding
towards zero on both sides. `insert` overwrites the oldest value and sifts its slot back into
order; `median` reads slot `0`, and the mean of slots `0` and `-1` when the max heap holds one
value more than the min heap.

The constructor `malloc`s one block for the three arrays and leaves it as it was; the model's
state holds the arrays as functions, whatever they held before `clear` sets up `pos` and
`heap`. The `int` arithmetic of the slots and counts is exact here: they stay within `N`.
-/

set_option autoImplicit false

namespace Wazn

namespace MiscUtils

/-- The fields of `rolling_median_t`. -/
structure RollingMedianT (Item : Type) where
  data : ℕ → Item
  pos : ℕ → ℤ
  heap : ℤ → ℕ
  N : ℕ
  idx : ℕ
  minCt : ℕ
  maxCt : ℕ
  sz : ℕ

namespace RollingMedianT

variable {Item : Type}

/-- `mmexchange(i, j)`: swaps the slots `i` and `j` of the heap and records their new slots. -/
def mmexchange (s : RollingMedianT Item) (i j : ℤ) : RollingMedianT Item :=
  let t := s.heap i
  let heap := Function.update (Function.update s.heap i (s.heap j)) j t
  { s with
    heap := heap
    pos := Function.update (Function.update s.pos (heap i) i) (heap j) j }

/-- The slot `clear` gives the index `nItems`, in the pattern median, max, min, max, …. -/
def fillPos (nItems : ℕ) : ℤ :=
  ((nItems + 1) / 2 : ℕ) * (if nItems % 2 = 1 then -1 else 1)

/-- The loop of `clear`, over the indexes below `nItems`, the last first. -/
def clearLoop : ℕ → RollingMedianT Item → RollingMedianT Item
  | 0, s => s
  | nItems + 1, s =>
    clearLoop nItems
      { s with
        pos := Function.update s.pos nItems (fillPos nItems)
        heap := Function.update s.heap (fillPos nItems) nItems }

/-- `clear()`: empties the window and lays the indexes out in the initial heap pattern. The
values in `data` stay. -/
def clear (s : RollingMedianT Item) : RollingMedianT Item :=
  clearLoop s.N { s with idx := 0, minCt := 0, maxCt := 0, sz := 0 }

/-- `size()`: the number of values in the window. -/
def size (s : RollingMedianT Item) : ℕ := s.sz

section Sift

variable [LT Item] [DecidableLT Item]

/-- `mmless(i, j)`: the value at slot `i` is below the value at slot `j`. -/
def mmless (s : RollingMedianT Item) (i j : ℤ) : Bool :=
  decide (s.data (s.heap i) < s.data (s.heap j))

/-- `mmCmpExch(i, j)`: swaps the slots `i` and `j` when the value at `i` is below the one at
`j`, and says whether it did. -/
def mmCmpExch (s : RollingMedianT Item) (i j : ℤ) : Bool × RollingMedianT Item :=
  if s.mmless i j then (true, s.mmexchange i j) else (false, s)

/-- The loop of `minSortDown`, at the child `i` of the slot that moves down. -/
def minSortDownLoop : ℕ → RollingMedianT Item → ℤ → RollingMedianT Item
  | 0, s, _ => s
  | fuel + 1, s, i =>
    if i ≤ s.minCt then
      let i := if i < s.minCt ∧ s.mmless (i + 1) i then i + 1 else i
      let r := s.mmCmpExch i (i.tdiv 2)
      if r.1 then minSortDownLoop fuel r.2 (i * 2) else r.2
    else s

/-- `minSortDown(i)`: restores the min heap below slot `i`. The child the loop is at at least
doubles each round, so `minCt + 1` rounds are more than it takes. -/
def minSortDown (s : RollingMedianT Item) (i : ℤ) : RollingMedianT Item :=
  minSortDownLoop (s.minCt + 1) s (i * 2)

/-- The loop of `maxSortDown`, at the child `i` of the slot that moves down. -/
def maxSortDownLoop : ℕ → RollingMedianT Item → ℤ → RollingMedianT Item
  | 0, s, _ => s
  | fuel + 1, s, i =>
    if -(s.maxCt : ℤ) ≤ i then
      let i := if -(s.maxCt : ℤ) < i ∧ s.mmless i (i - 1) then i - 1 else i
      let r := s.mmCmpExch (i.tdiv 2) i
      if r.1 then maxSortDownLoop fuel r.2 (i * 2) else r.2
    else s

/-- `maxSortDown(i)`: restores the max heap below the negative slot `i`. -/
def maxSortDown (s : RollingMedianT Item) (i : ℤ) : RollingMedianT Item :=
  maxSortDownLoop (s.maxCt + 1) s (i * 2)

/-- The loop of `minSortUp`: whether the slot reached `0`, and the state. -/
def minSortUpLoop : ℕ → RollingMedianT Item → ℤ → Bool × RollingMedianT Item
  | 0, s, i => (decide (i = 0), s)
  | fuel + 1, s, i =>
    if 0 < i then
      let r := s.mmCmpExch i (i.tdiv 2)
      if r.1 then minSortUpLoop fuel r.2 (i.tdiv 2) else (decide (i = 0), r.2)
    else (decide (i = 0), s)

/-- `minSortUp(i)`: restores the min heap above slot `i`, the median included, and says
whether the median changed. The slot halves each round, so `i` rounds are enough. -/
def minSortUp (s : RollingMedianT Item) (i : ℤ) : Bool × RollingMedianT Item :=
  minSortUpLoop i.toNat s i

/-- The loop of `maxSortUp`: whether the slot reached `0`, and the state. -/
def maxSortUpLoop : ℕ → RollingMedianT Item → ℤ → Bool × RollingMedianT Item
  | 0, s, i => (decide (i = 0), s)
  | fuel + 1, s, i =>
    if i < 0 then
      let r := s.mmCmpExch (i.tdiv 2) i
      if r.1 then maxSortUpLoop fuel r.2 (i.tdiv 2) else (decide (i = 0), r.2)
    else (decide (i = 0), s)

/-- `maxSortUp(i)`: restores the max heap above the negative slot `i`, the median included,
and says whether the median changed. -/
def maxSortUp (s : RollingMedianT Item) (i : ℤ) : Bool × RollingMedianT Item :=
  maxSortUpLoop (-i).toNat s i

/-- `insert(v)`: writes `v` over the oldest value and sifts its slot. A slot of the min heap
first grows the min heap while it is not full; else a value above the one it replaces moves
down, and any other moves up, past the median into the max heap if it gets there. The max heap
is the mirror image. A new median is sifted into the max heap, then into the min heap. -/
def insert (s : RollingMedianT Item) (v : Item) : RollingMedianT Item :=
  let p := s.pos s.idx
  let old := s.data s.idx
  let s := { s with
    data := Function.update s.data s.idx v
    idx := (s.idx + 1) % s.N
    sz := min (s.sz + 1) s.N }
  if 0 < p then
    let grow := s.minCt < (s.N - 1) / 2
    if ¬grow ∧ old < v then s.minSortDown p
    else
      let s := if grow then { s with minCt := s.minCt + 1 } else s
      let r := s.minSortUp p
      if r.1 then
        let c := r.2.mmCmpExch 0 (-1)
        if c.1 then c.2.maxSortDown (-1) else c.2
      else r.2
  else if p < 0 then
    let grow := s.maxCt < s.N / 2
    if ¬grow ∧ v < old then s.maxSortDown p
    else
      let s := if grow then { s with maxCt := s.maxCt + 1 } else s
      let r := s.maxSortUp p
      if r.1 ∧ 0 < r.2.minCt then
        let c := r.2.mmCmpExch 1 0
        if c.1 then c.2.minSortDown 1 else c.2
      else r.2
  else
    let s : RollingMedianT Item :=
      if 0 < s.maxCt then
        let r := s.maxSortUp (-1)
        if r.1 then r.2.maxSortDown (-1) else r.2
      else s
    if 0 < s.minCt then
      let r := s.minSortUp 1
      if r.1 then r.2.minSortDown 1 else r.2
    else s

end Sift

/-- `median()` of a `rolling_median_t<uint64_t>`: the value at slot `0`, or `get_mid` of it and
the value at slot `-1` when the max heap holds more values than the min heap. -/
def median (s : RollingMedianT UInt64) : UInt64 :=
  let v := s.data (s.heap 0)
  if s.minCt < s.maxCt then getMid v (s.data (s.heap (-1))) else v

end RollingMedianT

/-- `rolling_median_t(N)`: the block `malloc` returns, whatever it holds, set up by `clear`. -/
def rollingMedianT {Item : Type} (N : ℕ) (block : RollingMedianT Item) : RollingMedianT Item :=
  RollingMedianT.clear { block with N := N }

end MiscUtils

end Wazn
