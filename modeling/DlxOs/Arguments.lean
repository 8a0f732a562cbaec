-- The trap that creates a process, and the arguments that `ProcessFork` lays out
-- for the new process. The arrays on the stack are lists, and what they hold at
-- first is a parameter. A read or write outside an array is a crash.
import DlxOs.Loader
import DlxOs.UserMemory

namespace dlxos

open Function

def SIZE_ARG_BUFF : Nat := 1024
def MAX_ARGS : Nat := 128

/-! ## Arrays of words -/

/-- The four bytes of a word. The machine stores the high byte first. -/
def wordBytes (w : Word) : List Byte :=
  [w.extractLsb' 24 8, w.extractLsb' 16 8, w.extractLsb' 8 8, w.extractLsb' 0 8]

/-- `args[j]`, in the bytes of the array. -/
def wordAt (args : List Byte) (j : Nat) : Option Word :=
  match args.drop (4 * j) with
  | b0 :: b1 :: b2 :: b3 :: _ => some (b0 ++ b1 ++ b2 ++ b3 : BitVec 32)
  | _ => none

/-! ## Copies of strings -/

/-- An access outside an array. -/
def inside {α : Type} : Option α → Except Halt α
  | none => .error .crash
  | some a => .ok a

/-- `dstrcpy (buf + i, src)` -/
def dstrcpy : List Byte → Nat → List Byte → Option (List Byte)
  | [], _, _ => none
  | c :: cs, i, buf => do
    let buf ← store buf i c
    if c = 0 then return buf
    dstrcpy cs (i + 1) buf

/-- `dstrncpy (dst, src, n)`, to an address. -/
def dstrncpy : Nat → Word → List Byte → Ram → Option Ram
  | 0, _, _, ram => some ram
  | _ + 1, _, [], _ => none
  | n + 1, dst, c :: cs, ram =>
    if c = 0 then some (update ram dst c) else dstrncpy n (dst + 1) cs (update ram dst c)

/-- The length of a string at an address. A memory without a NUL has no length. -/
def dstrlen (ram : Ram) : Nat → Word → Option Nat
  | 0, _ => none
  | fuel + 1, s => if ram s = 0 then some 0 else (dstrlen ram fuel (s + 1)).map (· + 1)

/-- `MemoryCopyUserToSystem (currentPCB, src, buf+i, 1)` -/
def copyByte (user : UserMemory) (src : Word) (buf : List Byte) (i : Nat) : Option (List Byte) :=
  match user src with
  | none => some buf
  | some v => store buf i v

/-! ## The trap -/

/-- What the arrays of `TrapProcessCreateHandler` and `ProcessFork` hold at first. -/
structure Arrays where
  allargs : List Byte
  name : List Byte
  args : List Byte
  dum : List Word
  pcbName : List Byte
  allargs_length : allargs.length = SIZE_ARG_BUFF
  name_length : name.length = 100
  args_length : args.length = 4 * MAX_ARGS
  dum_length : dum.length = MAX_ARGS + 8
  pcbName_length : pcbName.length = 80

/-- A loop that copies a string byte by byte, from `src + k` to `buf + i`. It tests
the bound after each byte. -/
def copyLoop (user : UserMemory) (src : Word) (bound : Nat) :
    (fuel k i : Nat) → List Byte → Option (Nat × List Byte)
  | 0, _, _, _ => none
  | fuel + 1, k, i, buf => do
    let buf ← copyByte user (place src k) buf i
    if i + 1 < bound ∧ buf[i]? ≠ some 0 then copyLoop user src bound fuel (k + 1) (i + 1) buf
    else return (i + 1, buf)

/-- The loop that copies the name of the program. -/
def nameLoop (user : UserMemory) (src : Word) (name : List Byte) : Option (List Byte) :=
  (copyLoop user src 100 100 0 0 name).map Prod.snd

/-- The inner loop of the arguments, which copies one string to `allargs + i`. -/
def stringLoop (user : UserMemory) (src : Word) (i : Nat) (allargs : List Byte) :
    Option (Nat × List Byte) :=
  copyLoop user src SIZE_ARG_BUFF SIZE_ARG_BUFF 0 i allargs

/-- The outer loop, from `args[j]` on. There are `left` strings left to take. -/
def argsLoop (user : UserMemory) (args : List Byte) :
    (left j i : Nat) → List Byte → Option (List Byte)
  | 0, _, _, allargs => some allargs
  | left + 1, j, i, allargs => do
    let p ← wordAt args j
    if p = 0 then return allargs
    let (i, allargs) ← stringLoop user p i allargs
    argsLoop user args left (j + 1) i allargs

/-- The loop of the system branch. Each string goes to the start of `allargs`. -/
def systemLoop (ram : Ram) (args : List Byte) : (left j : Nat) → List Byte →
    Except Halt (List Byte)
  | 0, _, allargs => .ok allargs
  | left + 1, j, allargs => do
    let p ← inside (wordAt args j)
    if p = 0 then return allargs
    match dstrlen ram (2 ^ 32) p with
    | none => .error .hang
    | some k =>
      if k > 100 then .error (.exitsim "Fatal: Cumulative length of all arguments > 100")
      let src := userBytes (fun a => some (ram a)) p (SIZE_ARG_BUFF + 1)
      let allargs ← inside (dstrcpy src 0 allargs)
      let allargs ← inside (store allargs k 0)
      systemLoop ram args left (j + 1) allargs

/-- What the handler gives to `ProcessFork`, and the memory that it leaves. -/
structure Handed where
  name : List Byte
  allargs : List Byte
  ram : Ram

def TrapProcessCreateHandler (pcb : PCB) (a : Arrays) (trapArgs : Word) (sysmode : Bool)
    (ram : Ram) : Except Halt Handed := do
  let allargs := List.replicate 100 0 ++ a.allargs.drop 100
  if sysmode then
    let args := filled (userBytes (fun a => some (ram a)) trapArgs (4 * MAX_ARGS)) a.args
    let ram ← inside (dstrncpy 100 (← inside (wordAt args 0)) a.name ram)
    let name := a.name.set 99 0
    let allargs ← systemLoop ram args 11 0 allargs
    return ⟨name, allargs.set (SIZE_ARG_BUFF - 1) 0, ram⟩
  else
    let user := userMemory pcb ram
    let args := filled (userBytes user trapArgs (4 * MAX_ARGS)) a.args
    let name ← inside (nameLoop user (← inside (wordAt args 0)) a.name)
    let name := name.set 99 0
    let allargs ← inside (argsLoop user args 11 0 0 allargs)
    return ⟨name, allargs.set (SIZE_ARG_BUFF - 1) 0, ram⟩

/-! ## The new process -/

/-- The static variables of `get_argument`. -/
structure ArgPos where
  str : List Byte
  location : Nat

/-- The loop of `get_argument`, which goes past a NUL or up to position 100. -/
def skipArgument (str : List Byte) : (left : Nat) → Nat → Option Nat
  | 0, location => some location
  | left + 1, location => do
    if (← str[location]?) = 0 then return location + 1
    skipArgument str left (location + 1)

def get_argument (string : Option (List Byte)) (st : ArgPos) : Option (Nat × ArgPos) := do
  let st := match string with
    | some str => ⟨str, 0⟩
    | none => st
  if (← st.str[st.location]?) = 0 ∨ st.location ≥ 99 then return (0, st)
  let location ← skipArgument st.str (100 - st.location) st.location
  return (st.location, { st with location })

/-- `MEMORY_PAGE_SIZE - SIZE_ARG_BUFF` -/
def ARG_BASE : Nat := MEMORY_PAGE_SIZE - SIZE_ARG_BUFF

/-- The loop `for(count=3;;count++)`. -/
def vectorLoop : (fuel count : Nat) → ArgPos → List Word → Option (Nat × List Word)
  | 0, _, _, _ => none
  | fuel + 1, count, st, dum => do
    let (offset, st) ← get_argument none st
    let dum ← store dum count (BitVec.ofNat 32 (ARG_BASE + offset))
    if offset = 0 then return (count, dum)
    vectorLoop fuel (count + 1) st dum

/-- The part of `ProcessFork` that lays out the arguments: the stack pointer of
the new process, and its memory. Each turn of the loop goes on in the first 100
bytes. -/
def layArguments (param : List Byte) (dum : List Word) (child : UserMemory) :
    Option (Word × UserMemory) := do
  let r29 : Word := BitVec.ofNat 32 ARG_BASE
  let child := putBytes child r29 (param.take (SIZE_ARG_BUFF - 32))
  let (offset, st) ← get_argument (some param) ⟨[], 0⟩
  let dum ← store dum 2 (BitVec.ofNat 32 (ARG_BASE + offset))
  let (count, dum) ← vectorLoop (100 + 1) 3 st dum
  let dum ← store dum 0 (BitVec.ofNat 32 (count - 2))
  let dum ← store dum 1 (BitVec.ofNat 32 (ARG_BASE - (count - 2) * 4))
  let child := putBytes child (r29 - BitVec.ofNat 32 (count * 4))
    ((dum.take count).flatMap wordBytes)
  return (r29 - BitVec.ofNat 32 (4 * count), child)

/-- The path from the trap of a process to the stack pointer, the memory and the
name of the new process, where its program can be loaded. -/
def createProcess (pcb : PCB) (a : Arrays) (trapArgs : Word) (ram : Ram) (child : UserMemory) :
    Except Halt (Word × UserMemory × List Byte) := do
  let handed ← TrapProcessCreateHandler pcb a trapArgs false ram
  let pcbName ← inside (dstrcpy handed.name 0 a.pcbName)
  let (r29, child) ← inside (layArguments handed.allargs a.dum child)
  return (r29, child, pcbName)

end dlxos
