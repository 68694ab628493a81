/-!
# Reading bytes as text

Bytes are read as UTF-8. Wherever they are not, the longest start of a character at that place, or one
byte if there is none, becomes the replacement character.
-/
namespace OmegaGames.Text

def replacement : Char := '�'

def isContinuation (b : UInt8) : Bool := 0x80 ≤ b && b ≤ 0xbf

/-- The second bytes that may follow a first byte of a character of three bytes. -/
def secondOfThree (first second : UInt8) : Bool :=
  if first = 0xe0 then 0xa0 ≤ second && second ≤ 0xbf
  else if first = 0xed then 0x80 ≤ second && second ≤ 0x9f
  else isContinuation second

/-- The second bytes that may follow a first byte of a character of four bytes. -/
def secondOfFour (first second : UInt8) : Bool :=
  if first = 0xf0 then 0x90 ≤ second && second ≤ 0xbf
  else if first = 0xf4 then 0x80 ≤ second && second ≤ 0x8f
  else isContinuation second

def payload (b : UInt8) : Nat := b.toNat % 64

/-- Takes a character off the front of bytes that start with `b`. -/
def takeChar (b : UInt8) (bs : List UInt8) : Char × List UInt8 :=
  if b < 0x80 then (Char.ofNat b.toNat, bs)
  else if 0xc2 ≤ b && b ≤ 0xdf then
    match bs with
    | c :: cs =>
      if isContinuation c then (Char.ofNat (b.toNat % 32 * 64 + payload c), cs) else (replacement, bs)
    | [] => (replacement, bs)
  else if 0xe0 ≤ b && b ≤ 0xef then
    match bs with
    | c :: cs =>
      if secondOfThree b c then
        match cs with
        | d :: ds =>
          if isContinuation d then
            (Char.ofNat ((b.toNat % 16 * 64 + payload c) * 64 + payload d), ds)
          else (replacement, cs)
        | [] => (replacement, cs)
      else (replacement, bs)
    | [] => (replacement, bs)
  else if 0xf0 ≤ b && b ≤ 0xf4 then
    match bs with
    | c :: cs =>
      if secondOfFour b c then
        match cs with
        | d :: ds =>
          if isContinuation d then
            match ds with
            | e :: es =>
              if isContinuation e then
                (Char.ofNat (((b.toNat % 8 * 64 + payload c) * 64 + payload d) * 64 + payload e), es)
              else (replacement, ds)
            | [] => (replacement, ds)
          else (replacement, cs)
        | [] => (replacement, cs)
      else (replacement, bs)
    | [] => (replacement, bs)
  else (replacement, bs)

theorem takeChar_length (b : UInt8) (bs : List UInt8) : (takeChar b bs).2.length ≤ bs.length := by
  unfold takeChar
  repeat' split
  all_goals simp only [List.length_cons]
  all_goals omega

def decodeLossy : List UInt8 → List Char
  | [] => []
  | b :: bs =>
    let r := takeChar b bs
    r.1 :: decodeLossy r.2
termination_by bs => bs.length
decreasing_by
  have := takeChar_length b bs
  simp only [List.length_cons]
  omega

end OmegaGames.Text
