import ChainCodec.Bytes
import ChainCodec.Error

/-! # Canonical order

    Sets and maps are kept in the lexicographic order of the bytes of their
    elements or keys, which is also the order of the hexadecimal texts of
    those bytes.  Two entries with equal bytes are duplicates, however they
    were written. -/

namespace ChainCodec.Order

/-- An entry and the bytes that it is ordered by. -/
abbrev Entry : Type := Bytes × Value

def le (a b : Entry) : Bool := decide (a.1 ≤ b.1)

def sort (entries : List Entry) : List Entry := entries.mergeSort le

/-- The first bytes that stand at two neighbours. -/
def repeated? : List Entry → Option Bytes
  | a :: b :: rest => if a.1 = b.1 then some a.1 else repeated? (b :: rest)
  | _ => none

/-- The values in order, or the least bytes that several of them have. -/
def sortUnique (entries : List Entry) : Except Bytes (List Value) :=
  let sorted := sort entries
  match repeated? sorted with
  | some bs => .error bs
  | none => .ok (sorted.map Prod.snd)

end ChainCodec.Order
