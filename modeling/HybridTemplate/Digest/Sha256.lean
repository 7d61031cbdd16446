import HybridTemplate.Text.Utf8

set_option autoImplicit false

namespace HybridTemplate.Digest

open Text (Bytes)

structure State where
  a : UInt32
  b : UInt32
  c : UInt32
  d : UInt32
  e : UInt32
  f : UInt32
  g : UInt32
  h : UInt32
deriving DecidableEq

namespace State

def initial : State :=
  ⟨0x6a09e667, 0xbb67ae85, 0x3c6ef372, 0xa54ff53a, 0x510e527f, 0x9b05688c, 0x1f83d9ab, 0x5be0cd19⟩

def add (s t : State) : State :=
  ⟨s.a + t.a, s.b + t.b, s.c + t.c, s.d + t.d, s.e + t.e, s.f + t.f, s.g + t.g, s.h + t.h⟩

def words (s : State) : List UInt32 := [s.a, s.b, s.c, s.d, s.e, s.f, s.g, s.h]

end State

def roundConstants : List UInt32 := [
  0x428a2f98, 0x71374491, 0xb5c0fbcf, 0xe9b5dba5, 0x3956c25b, 0x59f111f1, 0x923f82a4, 0xab1c5ed5,
  0xd807aa98, 0x12835b01, 0x243185be, 0x550c7dc3, 0x72be5d74, 0x80deb1fe, 0x9bdc06a7, 0xc19bf174,
  0xe49b69c1, 0xefbe4786, 0x0fc19dc6, 0x240ca1cc, 0x2de92c6f, 0x4a7484aa, 0x5cb0a9dc, 0x76f988da,
  0x983e5152, 0xa831c66d, 0xb00327c8, 0xbf597fc7, 0xc6e00bf3, 0xd5a79147, 0x06ca6351, 0x14292967,
  0x27b70a85, 0x2e1b2138, 0x4d2c6dfc, 0x53380d13, 0x650a7354, 0x766a0abb, 0x81c2c92e, 0x92722c85,
  0xa2bfe8a1, 0xa81a664b, 0xc24b8b70, 0xc76c51a3, 0xd192e819, 0xd6990624, 0xf40e3585, 0x106aa070,
  0x19a4c116, 0x1e376c08, 0x2748774c, 0x34b0bcb5, 0x391c0cb3, 0x4ed8aa4a, 0x5b9cca4f, 0x682e6ff3,
  0x748f82ee, 0x78a5636f, 0x84c87814, 0x8cc70208, 0x90befffa, 0xa4506ceb, 0xbef9a3f7, 0xc67178f2]

def rotateRight (x : UInt32) (n : UInt32) : UInt32 := (x >>> n) ||| (x <<< (32 - n))

def bigSigma₀ (x : UInt32) : UInt32 := rotateRight x 2 ^^^ rotateRight x 13 ^^^ rotateRight x 22
def bigSigma₁ (x : UInt32) : UInt32 := rotateRight x 6 ^^^ rotateRight x 11 ^^^ rotateRight x 25
def smallSigma₀ (x : UInt32) : UInt32 := rotateRight x 7 ^^^ rotateRight x 18 ^^^ (x >>> 3)
def smallSigma₁ (x : UInt32) : UInt32 := rotateRight x 17 ^^^ rotateRight x 19 ^^^ (x >>> 10)

def choose (x y z : UInt32) : UInt32 := (x &&& y) ^^^ (~~~x &&& z)
def majority (x y z : UInt32) : UInt32 := (x &&& y) ^^^ (x &&& z) ^^^ (y &&& z)

def round (s : State) (kw : UInt32 × UInt32) : State :=
  let t₁ := s.h + bigSigma₁ s.e + choose s.e s.f s.g + kw.1 + kw.2
  let t₂ := bigSigma₀ s.a + majority s.a s.b s.c
  ⟨t₁ + t₂, s.a, s.b, s.c, s.d + t₁, s.e, s.f, s.g⟩

/-- The next word of the schedule from the words so far, the newest first. -/
def nextWord (newestFirst : List UInt32) : UInt32 :=
  smallSigma₁ (newestFirst.getD 1 0) + newestFirst.getD 6 0 +
    smallSigma₀ (newestFirst.getD 14 0) + newestFirst.getD 15 0

def extendSchedule : Nat → List UInt32 → List UInt32
  | 0, ws => ws
  | n + 1, ws => extendSchedule n (nextWord ws :: ws)

theorem extendSchedule_length (n : Nat) (ws : List UInt32) :
    (extendSchedule n ws).length = ws.length + n := by
  induction n generalizing ws with
  | zero => rfl
  | succ n ih => rw [extendSchedule, ih, List.length_cons]; omega

def schedule (block : List UInt32) : List UInt32 := (extendSchedule 48 block.reverse).reverse

def compress (s : State) (block : List UInt32) : State :=
  s.add ((roundConstants.zip (schedule block)).foldl round s)

def wordOfBytes (bs : Bytes) : UInt32 := bs.foldl (fun w b => (w <<< 8) ||| b.toUInt32) 0

def bigEndian : Nat → Nat → Bytes
  | 0, _ => []
  | n + 1, x => bigEndian n (x / 256) ++ [UInt8.ofNat x]

/-- A one bit, zeros up to eight bytes short of a block's end, and the length in bits. -/
def padded (message : Bytes) : Bytes :=
  message ++ 0x80 :: List.replicate ((119 - message.length % 64) % 64) 0 ++
    bigEndian 8 (8 * message.length)

def pieces {α : Type} (k : Nat) : Nat → List α → List (List α)
  | 0, _ => []
  | n + 1, xs => xs.take k :: pieces k n (xs.drop k)

def blocks (message : Bytes) : List (List UInt32) :=
  let p := padded message
  (pieces 64 (p.length / 64) p).map fun block => (pieces 4 16 block).map wordOfBytes

def bytesOfWord (w : UInt32) : Bytes := bigEndian 4 w.toNat

def sha256 (message : Bytes) : Bytes :=
  ((blocks message).foldl compress State.initial).words.flatMap bytesOfWord

theorem bigEndian_length (n x : Nat) : (bigEndian n x).length = n := by
  induction n generalizing x with
  | zero => rfl
  | succ n ih => simp [bigEndian, ih]

theorem sha256_length (message : Bytes) : (sha256 message).length = 32 := by
  simp [sha256, State.words, bytesOfWord, bigEndian_length]

theorem padded_length_mod (message : Bytes) : (padded message).length % 64 = 0 := by
  simp only [padded, List.length_append, List.length_cons, List.length_replicate, bigEndian_length]
  omega

def hexadecimal (bs : Bytes) : List Char :=
  bs.flatMap fun b => [Nat.digitChar (b.toNat / 16), Nat.digitChar (b.toNat % 16)]

theorem hexadecimal_length (bs : Bytes) : (hexadecimal bs).length = 2 * bs.length := by
  induction bs with
  | nil => rfl
  | cons b bs ih => simp only [hexadecimal, List.flatMap_cons, List.length_append] at ih ⊢
                    simp only [ih, List.length_cons, List.length_nil]; omega

end HybridTemplate.Digest
