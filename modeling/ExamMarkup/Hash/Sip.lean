import ExamMarkup.Text.Basic

/-!
# SipHash

SipHash with one round for each block and three at the end, under a key of zeros.
-/

namespace ExamMarkup.Hash

def rotateLeft (word bits : UInt64) : UInt64 :=
  (word <<< bits) ||| (word >>> (64 - bits))

structure SipState where
  v0 : UInt64
  v1 : UInt64
  v2 : UInt64
  v3 : UInt64

namespace SipState

def start : SipState :=
  ⟨0x736f6d6570736575, 0x646f72616e646f6d, 0x6c7967656e657261, 0x7465646279746573⟩

def round (s : SipState) : SipState :=
  let a0 := s.v0 + s.v1
  let a1 := rotateLeft s.v1 13 ^^^ a0
  let a2 := s.v2 + s.v3
  let a3 := rotateLeft s.v3 16 ^^^ a2
  let b0 := rotateLeft a0 32 + a3
  let b2 := a2 + a1
  ⟨b0, rotateLeft a1 17 ^^^ b2, rotateLeft b2 32, rotateLeft a3 21 ^^^ b0⟩

def absorb (s : SipState) (block : UInt64) : SipState :=
  let mixed := round { s with v3 := s.v3 ^^^ block }
  { mixed with v0 := mixed.v0 ^^^ block }

def finish (s : SipState) : UInt64 :=
  let s := round (round (round { s with v2 := s.v2 ^^^ 0xff }))
  s.v0 ^^^ s.v1 ^^^ s.v2 ^^^ s.v3

end SipState

def littleEndian : List UInt8 → UInt64
  | [] => 0
  | b :: bytes => b.toUInt64 ||| (littleEndian bytes <<< 8)

/-- All blocks of eight bytes, then the rest with the length of the whole in its highest byte. -/
def absorbAll (length : Nat) (s : SipState) : List UInt8 → SipState
  | b0 :: b1 :: b2 :: b3 :: b4 :: b5 :: b6 :: b7 :: rest =>
    absorbAll length (s.absorb (littleEndian [b0, b1, b2, b3, b4, b5, b6, b7])) rest
  | rest => s.absorb (littleEndian rest ||| (UInt64.ofNat (length % 256) <<< 56))

def sip13 (bytes : List UInt8) : UInt64 := (absorbAll bytes.length .start bytes).finish

/-- The hash of a text: of its UTF-8 bytes and a byte that occurs in no UTF-8. -/
def ofText (t : Text) : UInt64 := sip13 (t.flatMap String.utf8EncodeChar ++ [0xff])

end ExamMarkup.Hash
