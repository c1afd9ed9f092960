import ChainCodec.Writer

/-! # Reading bytes

    A reader is a cursor in a buffer.  A read that needs more bytes than are
    left fails and leaves the cursor where it is; an action made of several
    reads leaves it where the failing one started.

    A reader also counts the tagged unions that are open around the cursor
    and refuses to open more than its limit, which bounds the nesting of
    hostile input. -/

namespace ChainCodec

/-- How deep tagged unions may nest unless something else is asked for. -/
def defaultMaxDepth : Nat := 32

structure Reader where
  data : Array UInt8
  cursor : Nat
  depth : Nat
  maxDepth : Nat

namespace Reader

def withLimit (maxDepth : Nat) (bs : Bytes) : Reader := ⟨bs.toArray, 0, 0, maxDepth⟩

def ofBytes (bs : Bytes) : Reader := withLimit defaultMaxDepth bs

/-- A reader whose cursor starts at an offset inside the buffer or at its end. -/
def at? (bs : Bytes) (offset : Nat) : Except Error Reader :=
  if bs.length < offset then .error (.outOfBound offset 0 bs.length)
  else .ok { ofBytes bs with cursor := offset }

def remaining (r : Reader) : Nat := r.data.size - r.cursor

/-- How many more tagged unions may be opened. -/
def room (r : Reader) : Nat := r.maxDepth - r.depth

/-- The bytes from `start` up to `stop`. -/
def slice (start stop : Nat) (r : Reader) : Bytes := (r.data.extract start stop).toList

/-- The bytes that have not been read. -/
def rest (r : Reader) : Bytes := r.slice r.cursor r.data.size

/-- The bytes between an earlier position of the cursor and the cursor. -/
def since (start : Nat) (r : Reader) : Bytes := r.slice (min start r.cursor) r.cursor

/-- How many of `count` announced elements to make room for: no more than
    there are bytes left, whatever the announcement says. -/
def capacityHint (count remaining : Nat) : Nat := min count remaining

/-- Closes a tagged union. -/
def leave (r : Reader) : Reader := { r with depth := r.depth - 1 }

end Reader

/-! ## Actions -/

/-- Why a read did not end in a result. -/
inductive Halt where
  | error (e : Error)
  /-- The end of a read is past the last address, so that the check against
      the buffer cannot be carried out. -/
  | overflow
  deriving DecidableEq, Repr

def Halt.within (c : Context) : Halt → Halt
  | .error e => .error (e.within c)
  | .overflow => .overflow

/-- An action that reads. -/
abbrev Read (α : Type) : Type := Action Reader Halt α

/-- Offsets are numbers of 64 bits. -/
def addressLimit : Nat := UInt64.size

namespace Read

variable {α : Type}

def fail (e : Error) : Read α := Action.fail (.error e)

/-- Marks errors as being about a part. -/
def within (c : Context) (x : Read α) : Read α := x.mapError (Halt.within c)

/-- The next `n` bytes. -/
def take (n : Nat) : Read Bytes := fun r =>
  let stop := r.cursor + n
  if stop ≤ r.data.size then (.ok (r.slice r.cursor stop), { r with cursor := stop })
  else if stop < addressLimit then
    (.error (.error (.outOfBound r.cursor n r.data.size)), r)
  else (.error .overflow, r)

def byte : Read UInt8 := do
  let bs ← take 1
  pure (bs.headD 0)

/-- A number of `width` bytes, lowest first. -/
def fixed (width : Nat) : Read Nat := do
  let bs ← take width
  pure (LittleEndian.decode bs)

/-- Reads the groups after those that make up `low`, of which the next one
    counts `weight`; at most `left` of them may follow. -/
def groups : (left : Nat) → (weight low : Nat) → Read UInt32
  | 0, _, _ => fail (.decode .varintTooLong)
  | left + 1, weight, low => do
      let b ← byte
      let n := low + (b.toNat % 128) * weight
      if b < 128 then
        if n < UInt32.size then pure (UInt32.ofNat n) else fail (.decode (.varintOverflow n))
      else groups left (weight * 128) n

/-- A variable-length integer.  Padding with zero groups is accepted up to
    five bytes; the value has to fit 32 bits. -/
def varint : Read UInt32 := groups 5 1 0

def position : Read Nat := fun r => (.ok r.cursor, r)

/-- The bytes read since the cursor was at `start`. -/
def since (start : Nat) : Read Bytes := fun r => (.ok (r.since start), r)

/-- Opens a tagged union, unless too many are open already. -/
def enter : Read Unit := fun r =>
  if r.maxDepth ≤ r.depth then (.error (.error (.depthExceeded r.maxDepth)), r)
  else (.ok (), { r with depth := r.depth + 1 })

/-- Runs an action and closes the open tagged union, even after a failure. -/
def thenLeave (x : Read α) : Read α := fun r =>
  let (result, r') := x r
  (result, r'.leave)

/-- Runs an action inside one more tagged union. -/
def nested (x : Read α) : Read α := do
  enter
  thenLeave x

/-- Refuses bytes after the last one that was read. -/
def finish : Read Unit := fun r =>
  if r.remaining = 0 then (.ok (), r)
  else (.error (.error (.decode (.trailingBytes r.remaining))), r)

end Read

end ChainCodec
