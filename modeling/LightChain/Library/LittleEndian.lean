import Mathlib

/-!
# Little-endian numbers

`toLE k n` is the first `k` bytes of a number, least significant byte first, and `ofLE`
reads bytes back as a number.
-/
namespace LightChain.Library

abbrev Byte := BitVec 8

def toLE (k n : Nat) : List Byte := (List.range k).map fun b => BitVec.ofNat 8 (n >>> (8 * b))

def ofLE (bytes : List Byte) : Nat := bytes.foldr (fun b rest => b.toNat + 256 * rest) 0

end LightChain.Library
