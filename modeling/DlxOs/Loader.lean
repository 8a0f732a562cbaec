-- The loader of `process.c`. The buffers on its stack are lists of bytes, what
-- they hold at first is a parameter, and there is no result where a routine
-- reads or writes outside a buffer or never ends.
import DlxOs.Strings

namespace dlxos

/-- Reading and seeking in an open file, as the loader does it. -/
structure FileIo (F : Type) where
  read : Int → F → (Int × List Byte) × F
  seek : Int → Int → F → Int × F

/-- The file behind a descriptor. -/
def fsIo {H : Type} (host : Host H) (fd : Int) : FileIo (FsState H) where
  read := FsRead host fd
  seek := FsSeek host fd

/-- A file that is a fixed string of bytes, and the place in it. -/
structure File where
  content : List Byte
  pos : Nat

def byteString : FileIo File where
  read n f :=
    let bytes := (f.content.drop f.pos).take n.toNat
    ((bytes.length, bytes), { f with pos := f.pos + bytes.length })
  seek offset whence f :=
    if whence = FS_SEEK_SET then (offset, { f with pos := offset.toNat })
    else (f.pos + offset, { f with pos := (f.pos + offset).toNat })

variable {F : Type}

/-! ## The header -/

/-- What `ProcessGetCodeInfo` reads from the first line of a load file. -/
structure CodeInfo where
  startAddr : Word
  totalsize : Word
  codeStart : Word
  codeSize : Word
  dataStart : Word
  dataSize : Word
deriving DecidableEq

/-- The text `"start:"`. -/
def startText : List Byte := "start:".toList.map chr

/-- The numbers of the header. The first of them stands after the first colon. -/
def headerNumbers (buf : List Byte) : Option CodeInfo := do
  let pos ← dindex (chr ':') buf
  let pos ← pos.map List.tail
  let (startAddr, pos) ← dstrtol pos 16
  let (totalsize, pos) ← dstrtol pos 16
  let (codeStart, pos) ← dstrtol pos 16
  let (codeSize, pos) ← dstrtol pos 16
  let (dataStart, pos) ← dstrtol pos 16
  let (dataSize, _) ← dstrtol pos 16
  return ⟨startAddr, totalsize, codeStart, codeSize, dataStart, dataSize⟩

/-- The argument of the last `FsSeek`, `1 + dindex (buf, '\n') - buf`, where the
buffer is at address `here`. -/
def lineOffset (here : Int) (buf : List Byte) : Option Int := do
  match ← dindex (chr '\n') buf with
  | some rest => return 1 + (buf.length - rest.length)
  | none => return 1 - here

/-- The buffer `buf[100]` once `bytes` have been read into it. The list `stack`
is what the buffer, and whatever follows it, held before. -/
def filled (bytes stack : List Byte) : List Byte := bytes ++ stack.drop bytes.length

/-- The result of the header: it is too short, it has no start line, or it is
the header of a load file. -/
inductive Header where
  | tooShort
  | noStart
  | found (info : CodeInfo)
deriving DecidableEq

/-- The part of `ProcessGetCodeInfo` between the open and the close. -/
def readHeader (io : FileIo F) (here : Int) (stack : List Byte) (f : F) : Option (Header × F) := do
  let ((totalsize, bytes), f) := io.read 100 f
  if totalsize ≠ 100 then return (.tooShort, f)
  let buf := filled bytes stack
  if (← dstrstr startText buf) = none then return (.noStart, f)
  let info ← headerNumbers buf
  let offset ← lineOffset here buf
  return (.found info, (io.seek offset FS_SEEK_SET f).2)

/-- The descriptor of the file, or -1. -/
def ProcessGetCodeInfo {H : Type} (host : Host H) (file : List Byte) (here : Int)
    (stack : List Byte) (s : FsState H) : Option (Int × Option CodeInfo × FsState H) :=
  let (fd, s) := FsOpen host file FS_MODE_READ s
  if fd < 0 then some (-1, none, s)
  else match readHeader (fsIo host fd) here stack s with
    | none => none
    | some (.tooShort, s) => some (-1, none, (FsClose host fd s).2)
    | some (.noStart, s) => some (-1, none, s)
    | some (.found info, s) => some (fd, some info, s)

/-! ## The data -/

/-- `while (localbuf[--nbytes] != '\n')`, where `nbytes` is `n`. -/
def lastNewline (localbuf : List Byte) : Nat → Option Nat
  | 0 => none
  | n + 1 => if localbuf[n]? = some (chr '\n') then some n else lastNewline localbuf n

/-- `buf[i] = v;` -/
def store {α : Type} (buf : List α) (i : Nat) (v : α) : Option (List α) :=
  if i < buf.length then some (buf.set i v) else none

/-- What the loops of `ProcessGetFromFile` change: the place in the buffer, the
bytes for the caller, and the address. -/
structure Scan where
  lpos : List Byte
  out : List Byte
  addr : Word
deriving DecidableEq

/-- The loop over the bytes of one line. The caller has room for `room` bytes. -/
def dataLoop (room : Nat) : List Byte → List Byte → Word → Option Scan
  | [], _, _ => none
  | c :: cs, out, addr =>
    if c = chr ' ' ∨ c = chr '\t' then dataLoop room cs out addr
    else if c = chr '\n' then some ⟨cs, out, addr⟩
    else if isxdigit c then
      match cs with
      | [] => none
      | d :: ds =>
        if isxdigit d then
          if out.length < room then
            dataLoop room ds (out ++ [BitVec.ofNat 8 (getxvalue c * 16 + getxvalue d)]) (addr + 1)
          else none
        else some ⟨c :: d :: ds, out, addr⟩
    else some ⟨c :: cs, out, addr⟩

/-- The address in front of the colon, where the line has one. -/
def lineAddress (x : Scan) (c : Byte) : Option (Word × List Byte) :=
  if c ≠ chr ':' then dstrtol x.lpos 16 else some (x.addr, x.lpos)

/-- The loop over the lines in the buffer. Each turn goes past a colon, so the
fuel only has to pass the length of the buffer. -/
def lineLoop (room : Nat) : Nat → Scan → Option Scan
  | 0, _ => none
  | fuel + 1, x => do
    if (← dindex (chr 'Z') x.lpos) = none then return x
    if (← dindex (chr ':') x.lpos) = none then return x
    let c ← at0 x.lpos
    if c ≠ chr ':' ∧ x.out ≠ [] then return x
    let (addr, lpos) ← lineAddress x c
    if (← at0 lpos) ≠ chr ':' then return { x with lpos, addr }
    let x ← dataLoop room lpos.tail x.out addr
    lineLoop room fuel x

/-- The buffer after the marks for its end: all after the last newline is cut. -/
def markEnd (localbuf : List Byte) (nbytes : Nat) : Option (List Byte) := do
  let n ← lastNewline localbuf nbytes
  let localbuf ← store localbuf (n + 1) (chr 'Z')
  store localbuf (n + 2) 0

/-- The number of bytes, the bytes and the new address. The caller's buffer has
room for `room` bytes, and `stack` is what `localbuf[204]` held before. -/
def ProcessGetFromFile (io : FileIo F) (stack : List Byte) (room : Nat) (addr : Word) (max : Nat)
    (f : F) : Option (Int × List Byte × Word × F) := do
  let (seekpos, f) := io.seek 0 FS_SEEK_CUR f
  let max := if max * 2 > 200 then 200 else max * 2
  let ((nbytes, bytes), f) := io.read max f
  if nbytes ≤ 0 then return (0, [], addr, f)
  let localbuf ← markEnd (filled bytes stack) nbytes.toNat
  let x ← lineLoop room (localbuf.length + 1) ⟨localbuf, [], addr⟩
  let offset := seekpos + (localbuf.length - x.lpos.length)
  return (x.out.length, x.out, x.addr, (io.seek offset FS_SEEK_SET f).2)

end dlxos
