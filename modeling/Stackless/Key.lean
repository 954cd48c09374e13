import Stackless.Digest

/-!
# Keys of declarations

A type or function is identified by a key computed from its name alone, so it can be referred to
before it is declared. Each kind of declaration has a marker of its own, and the key of a member
also depends on the key of its owner.
-/

namespace Stackless

structure Key where
  word : UInt64
  deriving DecidableEq

namespace Key

instance : Inhabited Key := ⟨⟨0⟩⟩

def type (name : String) : Key := ⟨0x2fac10b63a6cc57c ^^^ Digest.ofString name⟩

/-- The key of a function outside all classes. -/
def function (name : String) : Key := ⟨0x5ea77ffbcdf5f302 ^^^ Digest.ofString name⟩

def method (owner : Key) (name : String) : Key :=
  ⟨0x7d3c8b4a92e15f6d ^^^ Digest.rotateLeft owner.word 17 ^^^ Digest.ofString name⟩

/-- The key of the constructor with the given number of parameters. -/
def constructor (owner : Key) (arity : UInt64) : Key :=
  ⟨0x4e8a6c1f03b2d795 ^^^ Digest.rotateLeft owner.word 23 ^^^ Digest.ofWord arity⟩

def genericParameter (owner : Key) (name : String) : Key :=
  ⟨0x1a095090689d4647 ^^^ Digest.rotateLeft owner.word 31 ^^^ Digest.ofString name⟩

/-- The text of a key: 16 hexadecimal digits after `0x`. -/
def text (k : Key) : String :=
  let digits := Nat.toDigits 16 k.word.toNat
  "0x" ++ String.ofList (List.replicate (16 - digits.length) '0' ++ digits)

end Key

end Stackless
