import Mathlib.Data.List.Nodup

/-!
# Finding where two chains split (`blockchain.cpp`)

A node that syncs sends a peer `get_short_chain_history`: the hashes of its own chain from the
top down, ten blocks one by one, then with steps that double, and the genesis last. The peer
answers from `find_blockchain_supplement`, which checks that the list ends with its genesis
and takes the height, in its own chain, of the first hash of the list it has.

A chain is the list of its block hashes by height, as the `block_heights` table indexes them;
`block_exists` finds the height of a hash. Heights and offsets are natural numbers: the loop's
offsets stay below three times the height, far from `2 ^ 64`. The loop records whether it
pushed the genesis (`genesis_included`), which is whether it pushed the height 0.
-/

set_option autoImplicit false

namespace Wazn

namespace Cryptonote

variable {κ : Type} [DecidableEq κ]

/-- The loop of `get_short_chain_history` on a chain of height `sz`, with `fuel` rounds at most,
after `i` rounds, at `current_multiplier` and `current_back_offset`: the heights whose hashes it
pushes. -/
def shortChainHistoryLoop (sz : ℕ) : ℕ → ℕ → ℕ → ℕ → List ℕ
  | 0, _, _, _ => []
  | fuel + 1, i, currentMultiplier, currentBackOffset =>
    if currentBackOffset < sz then
      (sz - currentBackOffset) ::
        if i < 10 then
          shortChainHistoryLoop sz fuel (i + 1) currentMultiplier (currentBackOffset + 1)
        else
          shortChainHistoryLoop sz fuel (i + 1) (currentMultiplier * 2)
            (currentBackOffset + currentMultiplier * 2)
    else []

/-- The heights of `get_short_chain_history` on a chain of height `sz`: those of the loop,
which takes a step of at least one each round, so `sz` rounds are enough, then the genesis
unless the loop pushed it. -/
def shortChainHistoryHeights (sz : ℕ) : List ℕ :=
  if sz = 0 then []
  else
    let heights := shortChainHistoryLoop sz sz 0 1 1
    -- `genesis_included`
    if 0 ∈ heights then heights else heights ++ [0]

/-- `Blockchain::get_short_chain_history`: the hashes at those heights. -/
def getShortChainHistory (blocks : List κ) : List κ :=
  (shortChainHistoryHeights blocks.length).filterMap (blocks[·]?)

/-- `BlockchainDB::block_exists(h, &height)`: the height of the hash in the chain. -/
def blockExists (blocks : List κ) (h : κ) : Option ℕ :=
  blocks.idxOf? h

/-- `Blockchain::find_blockchain_supplement(qblock_ids, starter_offset)`: the list must end
with the genesis hash; the split height is that of the first hash of the list the chain has.
`none` where it returns `false`, also when the chain has no genesis to read. -/
def findBlockchainSupplement (blocks : List κ) (qblockIds : List κ) : Option ℕ :=
  match qblockIds.getLast? with
  | none => none
  | some last =>
    match blocks[0]? with
    | none => none
    | some genHash =>
      if last ≠ genHash then none
      else qblockIds.findSome? (blockExists blocks)

end Cryptonote

end Wazn
