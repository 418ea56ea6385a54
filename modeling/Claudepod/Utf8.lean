import Claudepod.ByteStream

/-! UTF-8 decoding with the replacement rule of Rust's `String::from_utf8_lossy`: every
maximal invalid piece becomes one replacement character. -/

set_option autoImplicit false

namespace Interaction

/-- Continuation byte. -/
def isCont (b : UInt8) : Bool := 0x80 ≤ b && b ≤ 0xbf

/-- The second byte of a three-byte sequence, by its first. -/
def second3 (b c : UInt8) : Bool :=
  (b == 0xe0 && 0xa0 ≤ c && c ≤ 0xbf) || (0xe1 ≤ b && b ≤ 0xec && isCont c) ||
  (b == 0xed && 0x80 ≤ c && c ≤ 0x9f) || (0xee ≤ b && b ≤ 0xef && isCont c)

/-- The second byte of a four-byte sequence, by its first. -/
def second4 (b c : UInt8) : Bool :=
  (b == 0xf0 && 0x90 ≤ c && c ≤ 0xbf) || (0xf1 ≤ b && b ≤ 0xf3 && isCont c) ||
  (b == 0xf4 && 0x80 ≤ c && c ≤ 0x8f)

def scalar (lead : Nat) (tail : List UInt8) : Char :=
  Char.ofNat (tail.foldl (fun n c => n * 64 + (c.toNat - 0x80)) lead)

/-- The characters of a byte string, `none` for each maximal invalid piece. -/
def decodeUtf8 : Bytes → List (Option Char)
  | [] => []
  | b :: rest =>
    if b < 0x80 then some (Char.ofNat b.toNat) :: decodeUtf8 rest
    else if 0xc2 ≤ b && b ≤ 0xdf then
      match rest with
      | c :: rest' =>
        if isCont c then some (scalar (b.toNat - 0xc0) [c]) :: decodeUtf8 rest'
        else none :: decodeUtf8 (c :: rest')
      | [] => [none]
    else if 0xe0 ≤ b && b ≤ 0xef then
      match rest with
      | c :: d :: rest' =>
        if second3 b c then
          if isCont d then some (scalar (b.toNat - 0xe0) [c, d]) :: decodeUtf8 rest'
          else none :: decodeUtf8 (d :: rest')
        else none :: decodeUtf8 (c :: d :: rest')
      | [c] => if second3 b c then [none] else none :: decodeUtf8 [c]
      | [] => [none]
    else if 0xf0 ≤ b && b ≤ 0xf4 then
      match rest with
      | c :: d :: e :: rest' =>
        if second4 b c then
          if isCont d then
            if isCont e then some (scalar (b.toNat - 0xf0) [c, d, e]) :: decodeUtf8 rest'
            else none :: decodeUtf8 (e :: rest')
          else none :: decodeUtf8 (d :: e :: rest')
        else none :: decodeUtf8 (c :: d :: e :: rest')
      | [c, d] =>
        if second4 b c then
          if isCont d then [none] else none :: decodeUtf8 [d]
        else none :: decodeUtf8 [c, d]
      | [c] => if second4 b c then [none] else none :: decodeUtf8 [c]
      | [] => [none]
    else none :: decodeUtf8 rest

/-- `String::from_utf8(bs).is_ok()`. -/
def isUtf8 (bs : Bytes) : Bool := (decodeUtf8 bs).all Option.isSome

/-- The length of the maximal invalid piece at the front, `none` if the input ends inside it. -/
def invalidLen : Bytes → Option Nat
  | [] => none
  | b :: rest =>
    if 0xc2 ≤ b && b ≤ 0xdf then if rest = [] then none else some 1
    else if 0xe0 ≤ b && b ≤ 0xef then
      match rest with
      | [] => none
      | [c] => if second3 b c then none else some 1
      | c :: _ => if second3 b c then some 2 else some 1
    else if 0xf0 ≤ b && b ≤ 0xf4 then
      match rest with
      | [] => none
      | [c] => if second4 b c then none else some 1
      | [c, d] => if second4 b c then (if isCont d then none else some 2) else some 1
      | c :: d :: _ => if second4 b c then (if isCont d then some 3 else some 2) else some 1
    else some 1

/-- How many bytes of valid UTF-8 come first. -/
def validUpTo (bs : Bytes) : Nat :=
  (((decodeUtf8 bs).takeWhile Option.isSome).filterMap (fun c => c.map Char.utf8Size)).foldl
    (· + ·) 0

/-- The text of the `FromUtf8Error` of an invalid string. -/
def utf8Error (bs : Bytes) : String :=
  match invalidLen (bs.drop (validUpTo bs)) with
  | some len => s!"invalid utf-8 sequence of {len} bytes from index {validUpTo bs}"
  | none => s!"incomplete utf-8 byte sequence from index {validUpTo bs}"

/-- `String::from_utf8_lossy`. -/
def fromUtf8Lossy (bs : Bytes) : String :=
  String.ofList ((decodeUtf8 bs).map (fun c => c.getD (Char.ofNat 0xfffd)))

/-- `str::as_bytes`. -/
def utf8 (s : String) : Bytes := s.toByteArray.data.toList

@[simp] theorem utf8_length (s : String) : (utf8 s).length = s.utf8ByteSize := rfl

/-- The characters of a `str`. -/
abbrev Text := List Char

/-- `char::is_whitespace`, the Unicode property White_Space. -/
def isWhitespace (c : Char) : Bool :=
  let n := c.toNat
  (0x9 ≤ n && n ≤ 0xd) || n == 0x20 || n == 0x85 || n == 0xa0 || n == 0x1680 ||
  (0x2000 ≤ n && n ≤ 0x200a) || n == 0x2028 || n == 0x2029 || n == 0x202f || n == 0x205f ||
  n == 0x3000

/-- `str::trim_end`. -/
def trimEnd (s : String) : String :=
  String.ofList (s.toList.reverse.dropWhile isWhitespace).reverse

example : fromUtf8Lossy [0x61, 0xe2, 0x82, 0x41, 0xff, 0xc3, 0xa9] = "a\ufffdA\ufffdé" := by decide

example : utf8Error [0x61, 0xe2, 0x82] = "incomplete utf-8 byte sequence from index 1" := by decide

end Interaction
