-- The page allocator of `memory.c`, and the process control block of
-- `process.h` as far as the kernel model reads it. One bit of `freepages`
-- stands for one physical page.
import Mathlib.Algebra.Order.Ring.Int
import Mathlib.Data.Fintype.BigOperators
import Mathlib.Order.Interval.Finset.Nat

namespace dlxos

open Function

abbrev Word := BitVec 32

def MEMORY_PAGE_SIZE : Nat := 65536
def MEMORY_MAX_PAGES : Nat := 0x10000
def MEMORY_PTE_VALID : Word := 1#32
/-- Clears the valid, dirty and referenced bits of a page table entry. -/
def MEMORY_PTE_MASK : Word := ~~~(0x1#32 ||| 0x2#32 ||| 0x4#32)

/-- The size of `pagetable`. -/
def PAGETABLE_SIZE : Nat := 16

instance : NeZero PAGETABLE_SIZE := ⟨by decide⟩

/-- A process control block. Its field `l` is kept with the queues, and its
name and the stack frame other than the result register are left out. -/
structure PCB where
  sysStackArea : Word
  flags : Word
  pagetable : Fin PAGETABLE_SIZE → Word
  npages : Nat
  /-- `currentSavedFrame[PROCESS_STACK_IREG+1]` -/
  result : Int

/-- The static variables of `memory.c`. The cursor `mapnum` is the static
variable of `MemoryAllocPage`. -/
structure Memory where
  pagestart : Nat
  freemapmax : Nat
  nfreepages : Nat
  freepages : Nat → Word
  mapnum : Nat

def invert (n : Word) : Word := n ^^^ 0xffffffff#32

def MemorySetFreemap (p : Nat) (b : Word) (m : Memory) : Memory :=
  let wd := p / 32
  let bitnum := p % 32
  let word := (m.freepages wd &&& invert (1#32 <<< bitnum)) ||| (b <<< bitnum)
  { m with freepages := update m.freepages wd word }

/-- The pages that the machine has. -/
def maxpage (memsize : Nat) : Nat := memsize / MEMORY_PAGE_SIZE

/-- One turn of the second loop of `MemoryModuleInit`. -/
def initPage (m : Memory) (curpage : Nat) : Memory :=
  MemorySetFreemap curpage 1#32 { m with nfreepages := m.nfreepages + 1 }

def MemoryModuleInit (memsize lastosaddress : Nat) (m : Memory) : Memory :=
  let pagestart := (lastosaddress + MEMORY_PAGE_SIZE - 4) / MEMORY_PAGE_SIZE
  let freemapmax := (maxpage memsize + 31) / 32
  let m := { m with
    pagestart
    freemapmax
    freepages := fun i => if i < freemapmax then 0#32 else m.freepages i
    nfreepages := 0 }
  (List.range' pagestart (maxpage memsize - pagestart)).foldl initPage m

/-- The first loop of `MemoryAllocPage`: the cursor goes round the map to a
word that is not zero. After `freemapmax` turns the cursor has seen every
word, so a search that is still going then never ends. -/
def findWord (m : Memory) : Nat → Nat → Option Nat
  | 0, _ => none
  | fuel + 1, mapnum =>
    if m.freepages mapnum ≠ 0#32 then some mapnum
    else findWord m fuel (if mapnum + 1 ≥ m.freemapmax then 0 else mapnum + 1)

/-- The second loop: the lowest bit that is set in the word. -/
def findBit (v : Word) : Nat → Nat → Option Nat
  | 0, _ => none
  | fuel + 1, bitnum =>
    if v &&& (1#32 <<< bitnum) ≠ 0#32 then some bitnum else findBit v fuel (bitnum + 1)

/-- The page that was taken, or 0 where no page is free. There is no result
when one of the loops never ends. -/
def MemoryAllocPage (m : Memory) : Option (Nat × Memory) :=
  if m.nfreepages = 0 then some (0, m)
  else do
    let mapnum ← findWord m (m.freemapmax + 1) m.mapnum
    let bitnum ← findBit (m.freepages mapnum) 32 0
    let word := m.freepages mapnum &&& invert (1#32 <<< bitnum)
    let freepages := update m.freepages mapnum word
    some (mapnum * 32 + bitnum, { m with mapnum, freepages, nfreepages := m.nfreepages - 1 })

def MemoryFreePage (page : Nat) (m : Memory) : Memory :=
  let m := MemorySetFreemap page 1#32 m
  { m with nfreepages := m.nfreepages + 1 }

def MemorySetupPte (page : Nat) : Word :=
  BitVec.ofNat 32 (page * MEMORY_PAGE_SIZE) ||| MEMORY_PTE_VALID

/-- The physical page that a page table entry names. -/
def pteToPageNumber (pte : Word) : Nat := (pte &&& MEMORY_PTE_MASK).toNat / MEMORY_PAGE_SIZE

def MemoryFreePte (pte : Word) (m : Memory) : Memory := MemoryFreePage (pteToPageNumber pte) m

end dlxos
