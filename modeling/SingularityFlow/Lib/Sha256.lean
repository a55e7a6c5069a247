/-
# SHA-256

The hash function of FIPS 180-4 on octet strings, computed.  Nothing is
assumed of it: where a digest is compared, what follows is that the inputs
are equal or that they are a `Collision`.
-/
import SingularityFlow.Lib.Utf8

namespace Ecma

namespace Sha256

/-! ## Words -/

def rotateRight (x : UInt32) (n : UInt32) : UInt32 := (x >>> n) ||| (x <<< (32 - n))

def choose (x y z : UInt32) : UInt32 := (x &&& y) ^^^ ((x ^^^ 0xFFFFFFFF) &&& z)

def majority (x y z : UInt32) : UInt32 := (x &&& y) ^^^ (x &&& z) ^^^ (y &&& z)

def bigSigma0 (x : UInt32) : UInt32 := rotateRight x 2 ^^^ rotateRight x 13 ^^^ rotateRight x 22

def bigSigma1 (x : UInt32) : UInt32 := rotateRight x 6 ^^^ rotateRight x 11 ^^^ rotateRight x 25

def smallSigma0 (x : UInt32) : UInt32 := rotateRight x 7 ^^^ rotateRight x 18 ^^^ (x >>> 3)

def smallSigma1 (x : UInt32) : UInt32 := rotateRight x 17 ^^^ rotateRight x 19 ^^^ (x >>> 10)

/-- The round constants. -/
def roundConstants : List UInt32 :=
  [0x428a2f98, 0x71374491, 0xb5c0fbcf, 0xe9b5dba5, 0x3956c25b, 0x59f111f1, 0x923f82a4, 0xab1c5ed5,
   0xd807aa98, 0x12835b01, 0x243185be, 0x550c7dc3, 0x72be5d74, 0x80deb1fe, 0x9bdc06a7, 0xc19bf174,
   0xe49b69c1, 0xefbe4786, 0x0fc19dc6, 0x240ca1cc, 0x2de92c6f, 0x4a7484aa, 0x5cb0a9dc, 0x76f988da,
   0x983e5152, 0xa831c66d, 0xb00327c8, 0xbf597fc7, 0xc6e00bf3, 0xd5a79147, 0x06ca6351, 0x14292967,
   0x27b70a85, 0x2e1b2138, 0x4d2c6dfc, 0x53380d13, 0x650a7354, 0x766a0abb, 0x81c2c92e, 0x92722c85,
   0xa2bfe8a1, 0xa81a664b, 0xc24b8b70, 0xc76c51a3, 0xd192e819, 0xd6990624, 0xf40e3585, 0x106aa070,
   0x19a4c116, 0x1e376c08, 0x2748774c, 0x34b0bcb5, 0x391c0cb3, 0x4ed8aa4a, 0x5b9cca4f, 0x682e6ff3,
   0x748f82ee, 0x78a5636f, 0x84c87814, 0x8cc70208, 0x90befffa, 0xa4506ceb, 0xbef9a3f7, 0xc67178f2]

/-- The eight working variables. -/
structure State where
  a : UInt32
  b : UInt32
  c : UInt32
  d : UInt32
  e : UInt32
  f : UInt32
  g : UInt32
  h : UInt32

def initial : State :=
  ⟨0x6a09e667, 0xbb67ae85, 0x3c6ef372, 0xa54ff53a, 0x510e527f, 0x9b05688c, 0x1f83d9ab, 0x5be0cd19⟩

/-! ## Blocks -/

/-- The octets as big-endian words. -/
def words : Bytes → List UInt32
  | a :: b :: c :: d :: rest =>
      (a.toUInt32 <<< 24 ||| b.toUInt32 <<< 16 ||| c.toUInt32 <<< 8 ||| d.toUInt32) :: words rest
  | _ => []

/-- The message schedule extended by `n` words; the newest word comes first. -/
def extend : Nat → List UInt32 → List UInt32
  | 0, ws => ws
  | n + 1, ws =>
      extend n ((smallSigma1 (ws.getD 1 0) + ws.getD 6 0 + smallSigma0 (ws.getD 14 0)
        + ws.getD 15 0) :: ws)

def round (s : State) (k w : UInt32) : State :=
  let t₁ := s.h + bigSigma1 s.e + choose s.e s.f s.g + k + w
  let t₂ := bigSigma0 s.a + majority s.a s.b s.c
  ⟨t₁ + t₂, s.a, s.b, s.c, s.d + t₁, s.e, s.f, s.g⟩

def rounds : State → List UInt32 → List UInt32 → State
  | s, k :: ks, w :: ws => rounds (round s k w) ks ws
  | s, _, _ => s

/-- One block of sixteen words. -/
def compress (s : State) (block : List UInt32) : State :=
  let r := rounds s roundConstants (extend 48 block.reverse).reverse
  ⟨s.a + r.a, s.b + r.b, s.c + r.c, s.d + r.d, s.e + r.e, s.f + r.f, s.g + r.g, s.h + r.h⟩

/-- The blocks of a padded message. -/
def compressAll : Nat → State → List UInt32 → State
  | 0, s, _ => s
  | n + 1, s, ws => compressAll n (compress s (ws.take 16)) (ws.drop 16)

/-- The message with a one bit, zeros and its length in bits. -/
def pad (message : Bytes) : Bytes :=
  let bits := 8 * message.length
  message ++ 0x80 :: (List.replicate ((119 - message.length % 64) % 64) 0
    ++ (List.range 8).map fun i => UInt8.ofNat (bits / 2 ^ (8 * (7 - i))))

/-- The octets of a word, most significant first. -/
def octets (w : UInt32) : Bytes :=
  [(w >>> 24).toUInt8, (w >>> 16).toUInt8, (w >>> 8).toUInt8, w.toUInt8]

/-- The digest of a message. -/
def digest (message : Bytes) : Bytes :=
  let padded := pad message
  let s := compressAll (padded.length / 64) initial (words padded)
  [s.a, s.b, s.c, s.d, s.e, s.f, s.g, s.h].flatMap octets

end Sha256

/-- Two digits for each octet. -/
def hexText (bs : Bytes) : Text :=
  bs.flatMap fun b => [hexUnit (b.toNat / 16), hexUnit (b.toNat % 16)]

/-- `createHash('sha256').update(bytes).digest('hex')`. -/
def sha256Hex (bs : Bytes) : Text := hexText (Sha256.digest bs)

/-- Two octet strings that differ and have one digest. -/
def Collision (a b : Bytes) : Prop := a ≠ b ∧ sha256Hex a = sha256Hex b

theorem sha256Hex_eq_iff {a b : Bytes} : sha256Hex a = sha256Hex b ↔ a = b ∨ Collision a b := by
  constructor
  · intro h
    by_cases hab : a = b
    · exact Or.inl hab
    · exact Or.inr ⟨hab, h⟩
  · rintro (rfl | h)
    · rfl
    · exact h.2

example : sha256Hex (textEncode (js "abc"))
    = js "ba7816bf8f01cfea414140de5dae2223b00361a396177a9cb410ff61f20015ad" := by decide +kernel

end Ecma
