-- The string routines of `misc.c` and `misc.h`. A pointer into a buffer is the
-- list of the bytes from there to the end of the buffer, so `s++` is the tail
-- of the list, and there is no result where a byte past the end is read.
import DlxOs.FileSys

namespace dlxos

/-! ## Characters -/

/-- A character constant of the source. -/
def chr (c : Char) : Byte := BitVec.ofNat 8 c.toNat

/-- The range test `(c >= lo) && (c <= hi)`. -/
def within (lo hi : Char) (c : Byte) : Bool := chr lo ≤ c && c ≤ chr hi

/-- The last range is as in the source, from `'A'` to `'A'`. -/
def isxdigit (c : Byte) : Bool := within '0' '9' c || within 'a' 'f' c || within 'A' 'A' c

/-- The value of a hex digit, as the loader takes it. -/
def getxvalue (x : Byte) : Nat :=
  if within '0' '9' x then x.toNat - 48
  else if within 'a' 'f' x then x.toNat + 10 - 97
  else if within 'A' 'F' x then x.toNat + 10 - 65
  else 0

/-- The value of a digit in `dstrtol`, whatever the base. -/
def curdigit (c : Byte) : Nat :=
  if within '0' '9' c then c.toNat - 48
  else if within 'a' 'z' c then c.toNat + 10 - 97
  else if within 'A' 'Z' c then c.toNat + 10 - 65
  else 1000

/-! ## Searches -/

/-- `*s` -/
def at0 (s : List Byte) : Option Byte := s.head?

/-- Whether the string starts with the pattern, which has no NUL in it:
`dstrncmp (s, pattern, dstrlen (pattern)) == 0`. -/
def startsWith : List Byte → List Byte → Option Bool
  | [], _ => some true
  | _ :: _, [] => none
  | p :: ps, c :: cs => if c = p then startsWith ps cs else some false

def dstrstr (pattern : List Byte) : List Byte → Option (Option (List Byte))
  | [] => none
  | c :: cs =>
    if c = 0 then some none
    else match startsWith pattern (c :: cs) with
      | none => none
      | some true => some (some (c :: cs))
      | some false => dstrstr pattern cs

def dindex (x : Byte) : List Byte → Option (Option (List Byte))
  | [] => none
  | c :: cs =>
    if c = 0 then some none else if c = x then some (some (c :: cs)) else dindex x cs

/-- The inner loop of `dmindex`: whether the character is one of the others. -/
def occursIn (x : Byte) : List Byte → Option Bool
  | [] => none
  | c :: cs => if c = 0 then some false else if x = c then some true else occursIn x cs

/-- The outer loop. It goes on with the same `s`. -/
def dmindex : Nat → List Byte → List Byte → Option (Option (List Byte))
  | 0, _, _ => none
  | _, [], _ => none
  | fuel + 1, c :: cs, chars =>
    if c = 0 then some none
    else match occursIn c chars with
      | none => none
      | some true => some (some (c :: cs))
      | some false => dmindex fuel (c :: cs) chars

/-! ## Numbers -/

/-- The loop `for (k = 1; k <= n; k *= 10)`, on signed words. -/
def scaleLoop (n : Word) : Nat → Word → Option Word
  | 0, _ => none
  | fuel + 1, k => if k.sle n then scaleLoop n fuel (k * 10) else some k

/-- The loop that writes the digits. There is no result where it divides by zero. -/
def ditoaLoop : Nat → Word → Word → Option (List Byte)
  | 0, _, _ => none
  | fuel + 1, n, k => do
    let k := k.sdiv 10
    if k = 0 then none
    let c := (n.sdiv k + (chr '0').setWidth 32).setWidth 8
    let n := n.srem k
    if (1 : Word).slt k then return c :: (← ditoaLoop fuel n k)
    return [c]

/-- The bytes that are written to `buf`. Where the number is negative, the source
makes it positive and has no other use of it. -/
def ditoa (fuel : Nat) (n : Word) : Option (List Byte) := do
  if n.slt 0 then return [chr '-', 0]
  if n = 0 then return [chr '0', 0]
  let k ← scaleLoop n fuel 1
  let digits ← ditoaLoop fuel n k
  return digits ++ [0]

/-- The loop over the blanks in front of a number. -/
def skipBlanks : List Byte → Option (List Byte)
  | [] => none
  | c :: cs => if c = chr ' ' ∨ c = chr '\t' ∨ c = chr '\n' then skipBlanks cs else some (c :: cs)

/-- The loop over the digits. -/
def digitLoop (base : Nat) : Word → List Byte → Option (Word × List Byte)
  | _, [] => none
  | v, c :: cs =>
    if curdigit c < base then
      digitLoop base (v * BitVec.ofNat 32 base + BitVec.ofNat 32 (curdigit c)) cs
    else some (v, c :: cs)

/-- The base that the text asks for, where the caller gave base 0. -/
def baseOf (base : Nat) (c : List Byte) : Option (Nat × List Byte) := do
  if base ≠ 0 then return (base, c)
  if (← at0 c) ≠ chr '0' then return (10, c)
  let c := c.tail
  let x ← at0 c
  if x = chr 'x' ∨ x = chr 'X' then return (16, c.tail)
  return (8, c)

/-- The number at `c`, and the new value of `*newpos`. -/
def dstrtol (c : List Byte) (base : Nat) : Option (Word × List Byte) := do
  let start ← skipBlanks c
  let first ← at0 start
  if first = 0 then return (0, start)
  let (sign, c) : Word × List Byte := if first = chr '-' then (-1, start.tail) else (1, start)
  let (base, c) ← baseOf base c
  if base > 16 then return (0, start)
  let (v, c) ← digitLoop base 0 c
  return (v * sign, c)

end dlxos
