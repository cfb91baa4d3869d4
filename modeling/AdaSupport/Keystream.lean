import AdaSupport.Power

/-!
# A keystream of 32-bit words

The source of randomness is the stream cipher ChaCha with twelve rounds. A 64-bit seed is spread
over the eight words of its key; block `i` of the stream is a function of the key and `i`, so the
word at any position is found directly.

* `Keystream.key`: the key of a seed.
* `Keystream.block`: the sixteen words of a block.
* `Keystream.word`: the word at a position of the stream.
-/

namespace AdaSupport.Keystream

/-- A word rotated to the left. -/
def rotateLeft (x n : UInt32) : UInt32 := (x <<< n) ||| (x >>> (32 - n))

/-- A word rotated to the right. -/
def rotateRight (x n : UInt32) : UInt32 := (x >>> n) ||| (x <<< ((32 - n) % 32))

/-! ## Keys -/

/-- The next state of the generator that spreads a seed. -/
def spread (s : UInt64) : UInt64 := s * 6364136223846793005 + 11634580027462260723

/-- The word that a state gives. -/
def spreadWord (s : UInt64) : UInt32 :=
  rotateRight (((s >>> 18) ^^^ s) >>> 27).toUInt32 (s >>> 59).toUInt32

/-- The words of the next `n` states. -/
def spreadWords : Nat → UInt64 → List UInt32
  | 0, _ => []
  | n + 1, s => spreadWord (spread s) :: spreadWords n (spread s)

/-- The key of a seed. -/
def key (seed : UInt64) : List UInt32 := spreadWords 8 seed

/-! ## Blocks -/

/-- The words that a block is computed on. -/
abbrev State := Vector UInt32 16

/-- One quarter round on four words. -/
def quarterRound (a b c d : Fin 16) (v : State) : State :=
  let v := v.set a (v.get a + v.get b)
  let v := v.set d (rotateLeft (v.get d ^^^ v.get a) 16)
  let v := v.set c (v.get c + v.get d)
  let v := v.set b (rotateLeft (v.get b ^^^ v.get c) 12)
  let v := v.set a (v.get a + v.get b)
  let v := v.set d (rotateLeft (v.get d ^^^ v.get a) 8)
  let v := v.set c (v.get c + v.get d)
  v.set b (rotateLeft (v.get b ^^^ v.get c) 7)

/-- A round on the columns and a round on the diagonals. -/
def doubleRound (v : State) : State :=
  let v := quarterRound 0 4 8 12 v
  let v := quarterRound 1 5 9 13 v
  let v := quarterRound 2 6 10 14 v
  let v := quarterRound 3 7 11 15 v
  let v := quarterRound 0 5 10 15 v
  let v := quarterRound 1 6 11 12 v
  let v := quarterRound 2 7 8 13 v
  quarterRound 3 4 9 14 v

/-- The given number of double rounds. -/
def rounds : Nat → State → State
  | 0, v => v
  | n + 1, v => rounds n (doubleRound v)

/-- The words that block `i` starts from: four constants, the key, and the number of the block. -/
def start (key : List UInt32) (i : Nat) : State :=
  let k (j : Nat) : UInt32 := key.getD j 0
  #v[0x61707865, 0x3320646e, 0x79622d32, 0x6b206574,
    k 0, k 1, k 2, k 3, k 4, k 5, k 6, k 7,
    i.toUInt32, (i / twoTo 32).toUInt32, 0, 0]

/-- Block `i` of the stream. -/
def block (key : List UInt32) (i : Nat) : State :=
  let v := start key i
  Vector.zipWith (· + ·) v (rounds 6 v)

/-- The word at position `n` of the stream. -/
def word (key : List UInt32) (n : Nat) : UInt32 :=
  (block key (n / 16)).get ⟨n % 16, Nat.mod_lt _ (by decide)⟩

end AdaSupport.Keystream
