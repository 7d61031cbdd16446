set_option autoImplicit false

namespace HybridTemplate.Text

def byteLength : List Char → Nat
  | [] => 0
  | c :: cs => c.utf8Size + byteLength cs

@[simp] theorem byteLength_nil : byteLength [] = 0 := rfl

@[simp] theorem byteLength_cons (c : Char) (cs : List Char) :
    byteLength (c :: cs) = c.utf8Size + byteLength cs := rfl

@[simp] theorem byteLength_append (cs ds : List Char) :
    byteLength (cs ++ ds) = byteLength cs + byteLength ds := by
  induction cs with
  | nil => simp
  | cons c cs ih => simp [ih, Nat.add_assoc]

theorem byteLength_toList (s : String) : byteLength s.toList = s.utf8ByteSize := by
  suffices general : ∀ cs : List Char, byteLength cs = (String.ofList cs).utf8ByteSize by
    rw [general, String.ofList_toList]
  intro cs
  induction cs with
  | nil => simp
  | cons c cs ih =>
    have apart : String.ofList (c :: cs) = String.ofList [c] ++ String.ofList cs := by
      rw [← String.ofList_append]
      rfl
    have single : (String.ofList [c]).utf8ByteSize = c.utf8Size := by
      rw [← String.singleton_eq_ofList, String.utf8ByteSize_singleton]
    rw [byteLength_cons, ih, apart, String.utf8ByteSize_append, single]

abbrev Bytes := List UInt8

def encode (s : String) : Bytes := s.toUTF8.data.toList

/-- The number of bytes that a first byte announces, and the range of the second. -/
def leadByte? (b : UInt8) : Option (Nat × UInt8 × UInt8) :=
  if 0xC2 ≤ b && b ≤ 0xDF then some (2, 0x80, 0xBF)
  else if b == 0xE0 then some (3, 0xA0, 0xBF)
  else if b == 0xED then some (3, 0x80, 0x9F)
  else if 0xE1 ≤ b && b ≤ 0xEF then some (3, 0x80, 0xBF)
  else if b == 0xF0 then some (4, 0x90, 0xBF)
  else if 0xF1 ≤ b && b ≤ 0xF3 then some (4, 0x80, 0xBF)
  else if b == 0xF4 then some (4, 0x80, 0x8F)
  else none

def isContinuation (b : UInt8) : Bool := 0x80 ≤ b && b ≤ 0xBF

def payload (b : UInt8) : Nat := b.toNat % 64

/-- The character at the head of the bytes, `none` where they begin none, and the
bytes after it. -/
def decodeHead (b : UInt8) (rest : Bytes) : Option Char × Bytes :=
  if b < 0x80 then (some (Char.ofNat b.toNat), rest)
  else match leadByte? b, rest with
    | some (2, lo, hi), b₁ :: rest₁ =>
      if lo ≤ b₁ && b₁ ≤ hi then (some (Char.ofNat (b.toNat % 32 * 64 + payload b₁)), rest₁)
      else (none, rest)
    | some (3, lo, hi), b₁ :: rest₁ =>
      if lo ≤ b₁ && b₁ ≤ hi then
        match rest₁ with
        | b₂ :: rest₂ =>
          if isContinuation b₂ then
            (some (Char.ofNat ((b.toNat % 16 * 64 + payload b₁) * 64 + payload b₂)), rest₂)
          else (none, rest₁)
        | [] => (none, rest₁)
      else (none, rest)
    | some (4, lo, hi), b₁ :: rest₁ =>
      if lo ≤ b₁ && b₁ ≤ hi then
        match rest₁ with
        | b₂ :: rest₂ =>
          if isContinuation b₂ then
            match rest₂ with
            | b₃ :: rest₃ =>
              if isContinuation b₃ then
                (some (Char.ofNat
                  (((b.toNat % 8 * 64 + payload b₁) * 64 + payload b₂) * 64 + payload b₃)), rest₃)
              else (none, rest₂)
            | [] => (none, rest₂)
          else (none, rest₁)
        | [] => (none, rest₁)
      else (none, rest)
    | _, _ => (none, rest)

theorem decodeHead_length_le (b : UInt8) (rest : Bytes) :
    (decodeHead b rest).2.length ≤ rest.length := by
  unfold decodeHead
  repeat' split
  all_goals simp only [List.length_cons]; omega

def decodeParts : Bytes → List (Option Char)
  | [] => []
  | b :: rest => (decodeHead b rest).1 :: decodeParts (decodeHead b rest).2
termination_by bytes => bytes.length
decreasing_by
  have := decodeHead_length_le b rest
  simp only [List.length_cons]
  omega

def decode? (bytes : Bytes) : Option String :=
  ((decodeParts bytes).mapM id).map String.ofList

def decodeLossy (bytes : Bytes) : String :=
  String.ofList ((decodeParts bytes).map fun c => c.getD '\uFFFD')

end HybridTemplate.Text
