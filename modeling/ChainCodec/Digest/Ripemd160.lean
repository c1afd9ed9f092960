import ChainCodec.Bytes

/-! # RIPEMD-160

    A message is padded to whole blocks of 64 bytes.  Each block is mixed
    into the state along two independent lines of 80 steps, which take its
    sixteen words in different orders, and the results are combined.

    The state has five words by its type, so a digest always has 20 bytes. -/

namespace ChainCodec.Ripemd160

structure State where
  a : UInt32
  b : UInt32
  c : UInt32
  d : UInt32
  e : UInt32

def State.words (s : State) : List UInt32 := [s.a, s.b, s.c, s.d, s.e]

def initial : State := ⟨0x67452301, 0xefcdab89, 0x98badcfe, 0x10325476, 0xc3d2e1f0⟩

/-! ## Tables -/

/-- The order in which a line takes the words of the block, and by how many
    bits it rotates at each step. -/
structure Line where
  order : List Nat
  shifts : List UInt32
  constants : List UInt32

def left : Line where
  order :=
    [0, 1, 2, 3, 4, 5, 6, 7, 8, 9, 10, 11, 12, 13, 14, 15,
     7, 4, 13, 1, 10, 6, 15, 3, 12, 0, 9, 5, 2, 14, 11, 8,
     3, 10, 14, 4, 9, 15, 8, 1, 2, 7, 0, 6, 13, 11, 5, 12,
     1, 9, 11, 10, 0, 8, 12, 4, 13, 3, 7, 15, 14, 5, 6, 2,
     4, 0, 5, 9, 7, 12, 2, 10, 14, 1, 3, 8, 11, 6, 15, 13]
  shifts :=
    [11, 14, 15, 12, 5, 8, 7, 9, 11, 13, 14, 15, 6, 7, 9, 8,
     7, 6, 8, 13, 11, 9, 7, 15, 7, 12, 15, 9, 11, 7, 13, 12,
     11, 13, 6, 7, 14, 9, 13, 15, 14, 8, 13, 6, 5, 12, 7, 5,
     11, 12, 14, 15, 14, 15, 9, 8, 9, 14, 5, 6, 8, 6, 5, 12,
     9, 15, 5, 11, 6, 8, 13, 12, 5, 12, 13, 14, 11, 8, 5, 6]
  constants := [0x00000000, 0x5a827999, 0x6ed9eba1, 0x8f1bbcdc, 0xa953fd4e]

def right : Line where
  order :=
    [5, 14, 7, 0, 9, 2, 11, 4, 13, 6, 15, 8, 1, 10, 3, 12,
     6, 11, 3, 7, 0, 13, 5, 10, 14, 15, 8, 12, 4, 9, 1, 2,
     15, 5, 1, 3, 7, 14, 6, 9, 11, 8, 12, 2, 10, 0, 4, 13,
     8, 6, 4, 1, 3, 11, 15, 0, 5, 12, 2, 13, 9, 7, 10, 14,
     12, 15, 10, 4, 1, 5, 8, 7, 6, 2, 13, 14, 0, 3, 9, 11]
  shifts :=
    [8, 9, 9, 11, 13, 15, 15, 5, 7, 7, 8, 11, 14, 14, 12, 6,
     9, 13, 15, 7, 12, 8, 9, 11, 7, 7, 12, 7, 6, 15, 13, 11,
     9, 7, 15, 11, 8, 6, 6, 14, 12, 13, 5, 14, 13, 13, 7, 5,
     15, 5, 8, 11, 14, 14, 6, 14, 6, 9, 12, 9, 12, 5, 15, 8,
     8, 5, 12, 9, 12, 5, 14, 6, 8, 13, 6, 5, 15, 13, 11, 11]
  constants := [0x50a28be6, 0x5c4dd124, 0x6d703ef3, 0x7a6d76e9, 0x00000000]

/-! ## Compression -/

def rotate (x n : UInt32) : UInt32 := (x <<< n) ||| (x >>> (32 - n))

/-- The mixing function of each group of sixteen steps. -/
def mix (group : Nat) (x y z : UInt32) : UInt32 :=
  match group with
  | 0 => x ^^^ y ^^^ z
  | 1 => (x &&& y) ||| (~~~x &&& z)
  | 2 => (x ||| ~~~y) ^^^ z
  | 3 => (x &&& z) ||| (y &&& ~~~z)
  | _ => x ^^^ (y ||| ~~~z)

/-- One step, with its mixing function, input word, constant and shift. -/
def step (s : State) (group : Nat) (word constant shift : UInt32) : State :=
  let t := rotate (s.a + mix group s.b s.c s.d + word + constant) shift + s.e
  ⟨s.e, t, s.b, rotate s.c 10, s.d⟩

/-- The state after all steps of a line; `group` numbers the mixing function
    of the group of steps that step `i` belongs to. -/
def runLine (line : Line) (group : Nat → Nat) (words : List UInt32) (s : State) : State :=
  (List.range 80).foldl (fun s i =>
    step s (group (i / 16)) (words.getD (line.order.getD i 0) 0)
      (line.constants.getD (i / 16) 0) (line.shifts.getD i 0)) s

def compress (s : State) (block : Bytes) : State :=
  let words := (blocks 4 16 block).map fun bs => UInt32.ofNat (LittleEndian.decode bs)
  let l := runLine left id words s
  let r := runLine right (4 - ·) words s
  ⟨s.b + l.c + r.d, s.c + l.d + r.e, s.d + l.e + r.a, s.e + l.a + r.b, s.a + l.b + r.c⟩

/-- The message, a one bit, zeros up to 8 bytes before the end of a block,
    and the length in bits. -/
def pad (message : Bytes) : Bytes :=
  let zeros := (119 - message.length % 64) % 64
  message ++ 0x80 :: List.replicate zeros 0 ++ LittleEndian.encode 8 (8 * message.length)

def digest (message : Bytes) : Bytes :=
  let padded := pad message
  let final := (blocks 64 (padded.length / 64) padded).foldl compress initial
  final.words.flatMap fun w => LittleEndian.encode 4 w.toNat

@[simp] theorem length_digest (message : Bytes) : (digest message).length = 20 := by
  simp [digest, State.words]

end ChainCodec.Ripemd160
