/-!
UTF-8 over byte lists. Each step takes one character, or the longest piece that could have begun
one and does not; strict decoding refuses such pieces and lossy decoding writes one replacement
character for each of them.
-/

namespace ScriptImage.Utf8

/-- The one to four bytes of a character. -/
def encodeChar (c : Char) : List UInt8 :=
  let n := c.toNat
  if n < 0x80 then [UInt8.ofNat n]
  else if n < 0x800 then [UInt8.ofNat (0xC0 + n / 64), UInt8.ofNat (0x80 + n % 64)]
  else if n < 0x10000 then
    [UInt8.ofNat (0xE0 + n / 4096), UInt8.ofNat (0x80 + n / 64 % 64), UInt8.ofNat (0x80 + n % 64)]
  else
    [UInt8.ofNat (0xF0 + n / 262144), UInt8.ofNat (0x80 + n / 4096 % 64),
      UInt8.ofNat (0x80 + n / 64 % 64), UInt8.ofNat (0x80 + n % 64)]

def encode (s : String) : List UInt8 := s.toList.flatMap encodeChar

def isTail (b : UInt8) : Bool := 0x80 ≤ b && b ≤ 0xBF

/-- The second bytes that keep a three-byte form shortest and outside the surrogates. -/
def isSecondOfThree (lead b : UInt8) : Bool :=
  if lead = 0xE0 then 0xA0 ≤ b && b ≤ 0xBF
  else if lead = 0xED then 0x80 ≤ b && b ≤ 0x9F
  else isTail b

/-- The second bytes that keep a four-byte form shortest and within the code space. -/
def isSecondOfFour (lead b : UInt8) : Bool :=
  if lead = 0xF0 then 0x90 ≤ b && b ≤ 0xBF
  else if lead = 0xF4 then 0x80 ≤ b && b ≤ 0x8F
  else isTail b

def tailBits (b : UInt8) : Nat := b.toNat - 0x80

/-- One character, or none for a malformed piece, and the bytes after it. -/
def step (lead : UInt8) (rest : List UInt8) : Option Char × List UInt8 :=
  if lead < 0x80 then (some (Char.ofNat lead.toNat), rest)
  else if lead < 0xC2 then (none, rest)
  else if lead < 0xE0 then
    match rest with
    | b :: rest' =>
      if isTail b then (some (Char.ofNat ((lead.toNat - 0xC0) * 64 + tailBits b)), rest')
      else (none, rest)
    | [] => (none, [])
  else if lead < 0xF0 then
    match rest with
    | b :: rest' =>
      if isSecondOfThree lead b then
        match rest' with
        | c :: rest'' =>
          if isTail c then
            (some (Char.ofNat ((lead.toNat - 0xE0) * 4096 + tailBits b * 64 + tailBits c)), rest'')
          else (none, rest')
        | [] => (none, [])
      else (none, rest)
    | [] => (none, [])
  else if lead < 0xF5 then
    match rest with
    | b :: rest' =>
      if isSecondOfFour lead b then
        match rest' with
        | c :: rest'' =>
          if isTail c then
            match rest'' with
            | d :: rest''' =>
              if isTail d then
                (some (Char.ofNat ((lead.toNat - 0xF0) * 262144 + tailBits b * 4096
                  + tailBits c * 64 + tailBits d)), rest''')
              else (none, rest'')
            | [] => (none, [])
          else (none, rest')
        | [] => (none, [])
      else (none, rest)
    | [] => (none, [])
  else (none, rest)

theorem step_length (lead : UInt8) (rest : List UInt8) :
    (step lead rest).2.length ≤ rest.length := by
  unfold step
  repeat' split
  all_goals simp_all
  all_goals omega

/-- The pieces of a byte list in order: characters, and none for each malformed piece. -/
def pieces : List UInt8 → List (Option Char)
  | [] => []
  | b :: r => (step b r).1 :: pieces (step b r).2
termination_by bs => bs.length
decreasing_by
  have := step_length b r
  simp only [List.length_cons]
  omega

def decode? (bs : List UInt8) : Option String := ((pieces bs).mapM id).map String.ofList

/-- Decodes with one U+FFFD in place of each malformed piece. -/
def decodeLossy (bs : List UInt8) : String :=
  String.ofList ((pieces bs).map fun p => p.getD '\uFFFD')

end ScriptImage.Utf8
