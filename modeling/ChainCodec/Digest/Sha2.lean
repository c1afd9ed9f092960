import ChainCodec.Bytes

/-! # The SHA-2 construction

    What SHA-256 and SHA-512 have in common.  A message is padded to whole
    blocks of sixteen words.  Each block is expanded to one word for each
    round, and the words are mixed one after the other into a state of eight
    words; the state before the block is added at the end.

    The members of the family differ in the width of a word and in the data
    of `Variant`.  The state has eight words by its type, so a digest always
    has eight words too. -/

namespace ChainCodec.Sha2

structure State (α : Type) where
  a : α
  b : α
  c : α
  d : α
  e : α
  f : α
  g : α
  h : α

def State.words {α : Type} (s : State α) : List α := [s.a, s.b, s.c, s.d, s.e, s.f, s.g, s.h]

structure Variant (α : Type) where
  wordBytes : Nat
  ofNat : Nat → α
  toNat : α → Nat
  /-- The mixing functions of the message schedule. -/
  smallSigma0 : α → α
  smallSigma1 : α → α
  /-- The mixing functions of a round. -/
  bigSigma0 : α → α
  bigSigma1 : α → α
  initial : State α
  /-- One constant for each round. -/
  constants : List α

namespace Variant

variable {α : Type} [Add α] [AndOp α] [XorOp α] [Complement α] (v : Variant α)

def blockBytes : Nat := 16 * v.wordBytes

/-- The message, a one bit, zeros up to two words before the end of a block,
    and the length in bits. -/
def pad (message : Bytes) : Bytes :=
  let length := 2 * v.wordBytes
  let zeros := (2 * v.blockBytes - length - 1 - message.length % v.blockBytes) % v.blockBytes
  message ++ 0x80 :: List.replicate zeros 0 ++ BigEndian.encode length (8 * message.length)

/-! ## Message schedule -/

/-- The word after those of `latest`, which stand newest first. -/
def nextWord (latest : List α) : α :=
  let word i := latest.getD i (v.ofNat 0)
  v.smallSigma1 (word 1) + word 6 + v.smallSigma0 (word 14) + word 15

/-- Puts `count` more words in front of the words known. -/
def extend : (count : Nat) → (latest : List α) → List α
  | 0, latest => latest
  | count + 1, latest => extend count (v.nextWord latest :: latest)

/-- The sixteen words of a block and those computed from them. -/
def schedule (block : Bytes) : List α :=
  let words := (blocks v.wordBytes 16 block).map fun bs => v.ofNat (BigEndian.decode bs)
  (v.extend (v.constants.length - 16) words.reverse).reverse

/-! ## Compression -/

/-- One round, with its constant and its word of the schedule. -/
def round (s : State α) (input : α × α) : State α :=
  let choice := (s.e &&& s.f) ^^^ (~~~s.e &&& s.g)
  let majority := (s.a &&& s.b) ^^^ (s.a &&& s.c) ^^^ (s.b &&& s.c)
  let t1 := s.h + v.bigSigma1 s.e + choice + input.1 + input.2
  let t2 := v.bigSigma0 s.a + majority
  ⟨t1 + t2, s.a, s.b, s.c, s.d + t1, s.e, s.f, s.g⟩

def compress (s : State α) (block : Bytes) : State α :=
  let t := (v.constants.zip (v.schedule block)).foldl v.round s
  ⟨s.a + t.a, s.b + t.b, s.c + t.c, s.d + t.d, s.e + t.e, s.f + t.f, s.g + t.g, s.h + t.h⟩

def digest (message : Bytes) : Bytes :=
  let padded := v.pad message
  let final := (blocks v.blockBytes (padded.length / v.blockBytes) padded).foldl v.compress v.initial
  final.words.flatMap fun w => BigEndian.encode v.wordBytes (v.toNat w)

@[simp] theorem length_digest (message : Bytes) :
    (v.digest message).length = 8 * v.wordBytes := by
  simp only [digest, State.words, List.flatMap_cons, List.flatMap_nil, List.length_append,
    BigEndian.length_encode, List.length_nil]
  omega

end Variant

end ChainCodec.Sha2
