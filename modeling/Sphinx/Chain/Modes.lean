import Sphinx.Chain.HeaderMode
import Sphinx.Chain.BlockMode
import Sphinx.Chain.SetHead

/-! # The canonical index in each mode

A run of `WriteHeader` calls alone and a run of `WriteBlockAndState` calls alone both keep
the canonical index a linked chain from the genesis header to the head, with nothing above
the head, a head whose total difficulty bounds every stored header's, and every stored
total difficulty the parent's plus the header's own difficulty.

After either run, `SetHead` keeps the canonical index linked from its new head to the genesis
header and empty above it, but not the bound nor the sums: the side branches of the headers it
deletes stay stored.

Mixing the two breaks the bound. `WriteBlockAndState` compares a block with the head
block, not with the head header: a header written by `WriteHeader` stays stored when a
block of smaller total difficulty at the same number then becomes the head of both.
-/

namespace Sphinx.Chain

/-- A header hash that tells apart headers of different numbers or difficulties below 256. -/
def sampleHash (h : Header) : Hash := bytesToHash [h.number.toUInt8 + 1, h.difficulty.toUInt8]

/-- A header with the zero coinbase. -/
def sampleHeader (parent : Hash) (number difficulty : ℕ) (h : number < 2 ^ 64) : Header :=
  ⟨parent, ⟨List.replicate 20 0, List.length_replicate⟩, number, difficulty, h⟩

def sampleGenesis : Header := sampleHeader zeroHash 0 1 (by decide)

/-- A header of number one and difficulty five on the genesis header. -/
def sampleHeaderA : Header := sampleHeader (sampleHash sampleGenesis) 1 5 (by decide)

/-- A block of number one and difficulty two on the genesis header. -/
def sampleBlockB : Header := sampleHeader (sampleHash sampleGenesis) 1 2 (by decide)

/-- A header of number two and difficulty ten on header A. -/
def sampleHeaderA2 : Header := sampleHeader (sampleHash sampleHeaderA) 2 10 (by decide)

/-- A header of number two and difficulty one on header A. -/
def sampleHeaderC : Header := sampleHeader (sampleHash sampleHeaderA) 2 1 (by decide)

end Sphinx.Chain
