import SourceAtlas.Text.Basic

/-!
Text as bytes. `encode` writes each character in its one UTF-8 form; `decode` accepts exactly the
well-formed sequences and names why it stops at the first sequence that is not.
-/
namespace SourceAtlas.Text.Utf8

inductive Fault where
  /-- A byte that begins no character stands where a character begins. -/
  | startByte
  /-- A byte that cannot follow the bytes before it. -/
  | continuationByte
  /-- The input ends inside a character that is well formed so far. -/
  | endOfData
  deriving DecidableEq, Repr

def Fault.message : Fault → String
  | .startByte => "invalid start byte"
  | .continuationByte => "invalid continuation byte"
  | .endOfData => "unexpected end of data"

def encodeChar (c : Char) : List UInt8 :=
  let n := c.toNat
  if n < 0x80 then [n.toUInt8]
  else if n < 0x800 then [(0xC0 + n / 64).toUInt8, (0x80 + n % 64).toUInt8]
  else if n < 0x10000 then
    [(0xE0 + n / 4096).toUInt8, (0x80 + n / 64 % 64).toUInt8, (0x80 + n % 64).toUInt8]
  else
    [(0xF0 + n / 262144).toUInt8, (0x80 + n / 4096 % 64).toUInt8,
      (0x80 + n / 64 % 64).toUInt8, (0x80 + n % 64).toUInt8]

def encodeChars (cs : List Char) : List UInt8 := cs.flatMap encodeChar

def encode (s : String) : List UInt8 := encodeChars s.toList

/-- The bytes of one sign: a byte that is no character stands for itself. -/
def encodeSign : Sign → List UInt8
  | .char c => encodeChar c
  | .byte b => [(0x80 + b.val).toUInt8]

def size (t : Text) : Nat := (t.toList.flatMap encodeSign).length

/-- A byte of the form `10xxxxxx`. -/
def isTail (b : UInt8) : Bool := 0x80 ≤ b && b < 0xC0

/-- Whether `b` may follow the first byte `a` of a character of three or
four bytes. Overlong forms, surrogates and values past the last code point
are refused here. -/
def mayFollow (a b : UInt8) : Bool :=
  isTail b && !(a == 0xE0 && b < 0xA0) && !(a == 0xED && 0xA0 ≤ b) &&
    !(a == 0xF0 && b < 0x90) && !(a == 0xF4 && 0x90 ≤ b)

/-- Join the payload of a first byte with the payloads of the tail bytes. -/
def joinTails (high : Nat) (tails : List UInt8) : Char :=
  Char.ofNat (tails.foldl (fun n b => n * 64 + (b.toNat - 0x80)) high)

/-- Decode the bytes after the characters `done`, which are held in reverse. -/
def decodeOnto (done : List Char) : List UInt8 → Except Fault (List Char)
  | [] => .ok done.reverse
  | a :: rest =>
    if a < 0x80 then decodeOnto (Char.ofNat a.toNat :: done) rest
    else if a < 0xC2 then .error .startByte
    else if a < 0xE0 then
      match rest with
      | [] => .error .endOfData
      | b :: rest =>
        if isTail b then decodeOnto (joinTails (a.toNat - 0xC0) [b] :: done) rest
        else .error .continuationByte
    else if a < 0xF0 then
      match rest with
      | [] => .error .endOfData
      | [b] => if mayFollow a b then .error .endOfData else .error .continuationByte
      | b :: c :: rest =>
        if mayFollow a b && isTail c then
          decodeOnto (joinTails (a.toNat - 0xE0) [b, c] :: done) rest
        else .error .continuationByte
    else if a < 0xF5 then
      match rest with
      | [] => .error .endOfData
      | [b] => if mayFollow a b then .error .endOfData else .error .continuationByte
      | [b, c] =>
        if mayFollow a b && isTail c then .error .endOfData else .error .continuationByte
      | b :: c :: d :: rest =>
        if mayFollow a b && isTail c && isTail d then
          decodeOnto (joinTails (a.toNat - 0xF0) [b, c, d] :: done) rest
        else .error .continuationByte
    else .error .startByte

/-- The characters of a byte sequence, or the first fault in it. -/
def decode (bytes : List UInt8) : Except Fault (List Char) := decodeOnto [] bytes

/-- The three bytes that may mark the start of a UTF-8 file. -/
def mark : List UInt8 := [0xEF, 0xBB, 0xBF]

/-- Drop one leading mark. A second one is content. -/
def dropMark (bytes : List UInt8) : List UInt8 :=
  match bytes with
  | 0xEF :: 0xBB :: 0xBF :: rest => rest
  | _ => bytes

end SourceAtlas.Text.Utf8
