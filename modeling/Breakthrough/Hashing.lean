import Breakthrough.Random.ChaCha
import Breakthrough.Square

/-!
# Keys of position hashes

A position's hash is the exclusive or of one key per pawn and square, and of one more key when Black
is to move. A table of keys is drawn from a seed: White's 64 keys in square order, then Black's, then
the key of the side to move.
-/

namespace Breakthrough

/-- The keys that a hash is made of. -/
structure KeyTable where
  white : Vector UInt64 64
  black : Vector UInt64 64
  side : UInt64
  deriving DecidableEq

namespace KeyTable

def pawn (t : KeyTable) (c : Color) (s : Square) : UInt64 :=
  match c with
  | .white => t.white.get s.index
  | .black => t.black.get s.index

/-- The table that a stream begins with. -/
def ofSource {σ : Type} [WordSource σ] (g : σ) : KeyTable :=
  let (white, g) := WordSource.words64 64 g
  let (black, g) := WordSource.words64 64 g
  let (side, _) := WordSource.next64 g
  ⟨white, black, side⟩

def ofSeed (seed : UInt64) : KeyTable := ofSource (ChaCha.ofSeed seed)

/-- The table that positions use unless another is given, so that hashes are stable. -/
def shared : KeyTable := ofSeed 0x627265616b746872

end KeyTable

end Breakthrough
