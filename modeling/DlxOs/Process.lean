-- The processes of `process.c`: the four process queues, the scheduler, and
-- the creation and the end of a process. Pages of shared memory stand here as
-- well, because the end of a process releases them. The quantum timer, the
-- stack frames and the debugging output are left out.
import DlxOs.Kernel

namespace dlxos

open Function

/-! ## Queues inside the kernel -/

/-- Runs a queue routine. -/
def K.queue {α : Type} (f : Store KQueue Pid → α × Store KQueue Pid) : K α := fun k =>
  let r := f k.qs.store
  .ok (r.1, { k with
    qs := { k.qs with store := r.2 }
    exposed := k.exposed || k.intrs != 15 })

/-- `pcbs[p].l = l;` -/
def setPcbLink (p : Pid) (l : Option LinkId) : K Unit :=
  K.write fun k => { k with qs := { k.qs with link := update k.qs.link p l } }

def setPcb (p : Pid) (f : PCB → PCB) : K Unit :=
  K.write fun k => { k with pcbs := update k.pcbs p (f (k.pcbs p)) }

theorem setPcb_run (p : Pid) (f : PCB → PCB) (k : Kernel) :
    setPcb p f k = .ok ((), { k with pcbs := update k.pcbs p (f (k.pcbs p)) }) := rfl

/-- `if ((pcb->l = AQueueAllocLink(pcb)) == NULL)`, and the fatal branch. -/
def allocPcbLink (pcb : Pid) (fatal : String) : K Unit := do
  let l ← K.queue (AQueueAllocLink pcb)
  setPcbLink pcb l
  if l = none then exitsim fatal

/-- `if (AQueueRemove(&(pcb->l)) != QUEUE_SUCCESS)`, and the fatal branch. -/
def removePcbLink (pcb : Pid) (fatal : String) : K Unit := do
  let k ← K.read
  let (r, l) ← K.queue fun s =>
    let (r, l, s) := AQueueRemove (k.qs.link pcb) s
    ((r, l), s)
  setPcbLink pcb l
  if r ≠ QUEUE_SUCCESS then exitsim fatal

/-- `if (AQueueInsertLast(&q, pcb->l) != QUEUE_SUCCESS)`, and the fatal branch. -/
def insertPcbLast (q : KQueue) (pcb : Pid) (fatal : String) : K Unit := do
  let k ← K.read
  let r ← K.queue (AQueueInsertLast (.client q) (k.qs.link pcb))
  if r ≠ QUEUE_SUCCESS then exitsim fatal

/-- `if (AQueueInsertFirst(&q, pcb->l) != QUEUE_SUCCESS)`, and the fatal branch. -/
def insertPcbFirst (q : KQueue) (pcb : Pid) (fatal : String) : K Unit := do
  let k ← K.read
  let r ← K.queue (AQueueInsertFirst (.client q) (k.qs.link pcb))
  if r ≠ QUEUE_SUCCESS then exitsim fatal

def queueEmpty (q : KQueue) : K Bool := fun k => .ok (AQueueEmpty (.client q) k.qs.store, k)

/-- `AQueueObject(AQueueFirst(&q))` -/
def firstObject (q : KQueue) : K Pid := do
  let k ← K.read
  let l ← deref (AQueueFirst (.client q) k.qs.store)
  deref (AQueueObject l k.qs.store)

/-! ## Shared memory

`lib/share_memory.o` is the assembly text of these routines. The table
`_spages` has 32 entries of two words, a page and the bits of its processes. -/

/-- `pcb->pagetable[i]` -/
def PCB.pte (pcb : PCB) (i : Nat) : Option Word :=
  if h : i < PAGETABLE_SIZE then some (pcb.pagetable ⟨i, h⟩) else none

/-- `pcb->pagetable[i] = pte;` -/
def PCB.setPte (pcb : PCB) (i : Nat) (pte : Word) : PCB :=
  if h : i < PAGETABLE_SIZE then { pcb with pagetable := update pcb.pagetable ⟨i, h⟩ pte } else pcb

/-- The first entry of the table of shared pages that holds the page. -/
def findShared (k : Kernel) (page : Nat) : Option (Fin MEMORY_MAX_SHARED_PAGES) :=
  (List.finRange MEMORY_MAX_SHARED_PAGES).find? fun i => (k.spages i).page = page

def setShared (i : Fin MEMORY_MAX_SHARED_PAGES) (v : SharedPage) : K Unit :=
  K.write fun k => { k with spages := update k.spages i v }

/-- The bit of a process in an entry of the table. -/
def procBit (p : Pid) : Word := 1#32 <<< p.val

/-- How many processes an entry of the table counts. -/
def countProcs (procs : Word) : Nat := (List.finRange 32).countP fun i => procs.getLsbD i

def allocPage : K Nat := fun k => match MemoryAllocPage k.mem with
  | none => .error .hang
  | some (page, mem) => .ok (page, { k with mem })

def freePage (page : Nat) : K Unit := K.write fun k => { k with mem := MemoryFreePage page k.mem }

def freePte (pte : Word) : K Unit := K.write fun k => { k with mem := MemoryFreePte pte k.mem }

def MemoryCreateSharedPage (pcb : Pid) : K Int := do
  let intrs ← DisableIntrs
  let k ← K.read
  if (k.pcbs pcb).npages = PAGETABLE_SIZE then
    let _ ← RestoreIntrs intrs
    return 0
  match findShared k 0 with
  | none =>
    let _ ← RestoreIntrs intrs
    return 0
  | some i =>
    let page ← allocPage
    if page = 0 then exitsim "FATAL: couldn't allocate memory - no free pages!"
    setShared i ⟨page, procBit pcb⟩
    setPcb pcb fun b => { b.setPte b.npages (MemorySetupPte page) with npages := b.npages + 1 }
    let _ ← RestoreIntrs intrs
    return page

/-- The place in the page table of a page that the process maps already. -/
def findMapped (pcb : PCB) (page : Nat) : Option Nat :=
  (List.range pcb.npages).find? fun i =>
    (pcb.pte i).map (· &&& MEMORY_PTE_MASK) = some (BitVec.ofNat 32 (page * MEMORY_PAGE_SIZE))

/-- The virtual address of a shared page, or 0. -/
def mmap (pcb : Pid) (handle : Nat) : K Int := do
  if handle = 0 then return 0
  let intrs ← DisableIntrs
  let k ← K.read
  match findShared k handle with
  | none =>
    let _ ← RestoreIntrs intrs
    return 0
  | some i =>
    let b := k.pcbs pcb
    match findMapped b handle with
    | some j =>
      setShared i { k.spages i with procs := (k.spages i).procs ||| procBit pcb }
      let _ ← RestoreIntrs intrs
      return j * MEMORY_PAGE_SIZE
    | none =>
      if b.npages > 15 then
        let _ ← RestoreIntrs intrs
        return 0
      setPcb pcb fun b => { b.setPte b.npages (MemorySetupPte handle) with npages := b.npages + 1 }
      setShared i { k.spages i with procs := (k.spages i).procs ||| procBit pcb }
      let _ ← RestoreIntrs intrs
      return b.npages * MEMORY_PAGE_SIZE

def MemoryFreeSharedPte (pcb : Pid) (i : Nat) : K Int := do
  let intrs ← DisableIntrs
  let k ← K.read
  let pte ← deref ((k.pcbs pcb).pte i)
  let page := pte.toNat / MEMORY_PAGE_SIZE
  if page = 0 then exitsim "FATAL: Attempted to free memory page 0"
  match findShared k page with
  | none =>
    let _ ← RestoreIntrs intrs
    return -1
  | some j =>
    let procs := (k.spages j).procs &&& invert (procBit pcb)
    setShared j { k.spages j with procs }
    setPcb pcb fun b => { b with npages := b.npages - 1 }
    if countProcs procs = 0 then freePage page
    let _ ← RestoreIntrs intrs
    return countProcs procs

/-! ## Processes -/

def ProcessSetStatus (pcb : Pid) (status : Word) : K Unit :=
  setPcb pcb fun b => { b with flags := (b.flags &&& ~~~PROCESS_STATUS_MASK) ||| status }

/-- The loop `for (i=0; i<npages; i++) MemoryFreeSharedPte(pcb, i);` -/
def freeSharedPtes (pcb : Pid) : List Nat → K Unit
  | [] => pure ()
  | i :: is => do
    let _ ← MemoryFreeSharedPte pcb i
    freeSharedPtes pcb is

/-- The loop `for (i = 0; i < pcb->npages; i++) MemoryFreePte (pcb->pagetable[i]);` -/
def freePtes (pcb : Pid) : List Nat → K Unit
  | [] => pure ()
  | i :: is => do
    let k ← K.read
    let pte ← deref ((k.pcbs pcb).pte i)
    freePte pte
    freePtes pcb is

/-- The second half of `ProcessFreeResources`: the memory of the process. -/
def freeMemory (pcb : Pid) : K Unit := do
  let k ← K.read
  freeSharedPtes pcb (List.range (k.pcbs pcb).npages)
  let k ← K.read
  freePtes pcb (List.range (k.pcbs pcb).npages)
  let k ← K.read
  freePage ((k.pcbs pcb).sysStackArea.toNat / MEMORY_PAGE_SIZE)

def ProcessFreeResources (pcb : Pid) : K Unit := do
  allocPcbLink pcb "FATAL ERROR: could not get Queue Link in ProcessFreeResources!"
  setPcb pcb fun b => { b with flags := PROCESS_STATUS_FREE }
  insertPcbLast .freepcbs pcb
    "FATAL ERROR: could not insert PCB link into freepcbs queue in ProcessFreeResources!"
  freeMemory pcb
  ProcessSetStatus pcb PROCESS_STATUS_FREE

def ProcessSetResult (pcb : Pid) (result : Int) : K Unit := setPcb pcb fun b => { b with result }

/-- The last loop of `ProcessSchedule`. Each turn takes one link off the
queue, so the fuel only has to pass the number of links. -/
def reapZombies : Nat → K Unit
  | 0 => K.halt .hang
  | fuel + 1 => do
    if ← queueEmpty .zombieQueue then return ()
    let pcb ← firstObject .zombieQueue
    removePcbLink pcb
      "FATAL ERROR: could not remove zombie process from zombieQueue in ProcessSchedule!"
    ProcessFreeResources pcb
    reapZombies fuel

def ProcessSchedule (suspendFlag : Bool) : K Unit := do
  if ← queueEmpty .runQueue then
    if !(← queueEmpty .waitQueue) then
      exitsim "FATAL ERROR: no runnable processes, but there are sleeping processes waiting!"
    exitsim "No runnable processes - exiting!"
  if !suspendFlag then
    -- the front of the queue moves to the end
    let _ ← K.queue fun s => AQueueMoveAfter (.client .runQueue)
      (AQueueLast (.client .runQueue) s) (AQueueFirst (.client .runQueue) s) s
  let pcb ← firstObject .runQueue
  K.write fun k => { k with currentPCB := some pcb }
  reapZombies (QUEUE_MAX_LINKS + 1)

/-- `ASSERT` only prints a line when its condition fails. -/
def ASSERT (cond : Bool) (line : String) : K Unit := if cond then pure () else printf line

def suspendAssertion : String := "ProcessSuspend: Trying to suspend a non-running process!\n"
def wakeupAssertion : String := "ProcessWakeup: Trying to wake up a non-sleeping process!\n"

def hasStatus (pcb : PCB) (status : Word) : Bool := pcb.flags &&& status != 0#32

def ProcessSuspend (suspend : Pid) : K Unit := do
  let k ← K.read
  ASSERT (hasStatus (k.pcbs suspend) PROCESS_STATUS_RUNNABLE) suspendAssertion
  ProcessSetStatus suspend PROCESS_STATUS_WAITING
  removePcbLink suspend
    "FATAL ERROR: could not remove process from run Queue in ProcessSuspend!"
  allocPcbLink suspend "FATAL ERROR: could not get Queue Link in ProcessSuspend!"
  insertPcbLast .waitQueue suspend "FATAL ERROR: could not insert suspend PCB into waitQueue!"

def ProcessWakeup (wakeup : Pid) : K Unit := do
  let k ← K.read
  ASSERT (hasStatus (k.pcbs wakeup) PROCESS_STATUS_WAITING) wakeupAssertion
  ProcessSetStatus wakeup PROCESS_STATUS_RUNNABLE
  removePcbLink wakeup
    "FATAL ERROR: could not remove wakeup PCB from waitQueue in ProcessWakeup!"
  allocPcbLink wakeup "FATAL ERROR: could not get link for wakeup PCB in ProcessWakeup!"
  insertPcbLast .runQueue wakeup
    "FATAL ERROR: could not insert link into runQueue in ProcessWakeup!"

def ProcessDestroy (pcb : Pid) : K Unit := do
  ProcessSetStatus pcb PROCESS_STATUS_ZOMBIE
  removePcbLink pcb "FATAL ERROR: could not remove link from queue in ProcessDestroy!"
  allocPcbLink pcb "FATAL ERROR: could not get link for zombie PCB in ProcessDestroy!"
  insertPcbFirst .zombieQueue pcb
    "FATAL ERROR: could not insert link into runQueue in ProcessWakeup!"

/-- The memory of a new process: one user page, and one page for its system
stack. -/
def forkMemory (pcb : Pid) : K Unit := do
  setPcb pcb fun b => { b with npages := 1 }
  let newPage ← allocPage
  if newPage = 0 then exitsim "aFATAL: couldn't allocate memory - no free pages!"
  setPcb pcb fun b => b.setPte 0 (MemorySetupPte newPage)
  let newPage ← allocPage
  if newPage = 0 then exitsim "bFATAL: couldn't allocate system stack - no free pages!"
  let sysStackArea := BitVec.ofNat 32 (newPage * MEMORY_PAGE_SIZE)
  setPcb pcb fun b => { b with sysStackArea }

/-- `loads` says whether `ProcessGetCodeInfo` opens the file and finds a
start line in it. -/
def ProcessFork (isUser loads : Bool) : K Int := do
  let intrs ← DisableIntrs
  if ← queueEmpty .freepcbs then exitsim "FATAL error: no free processes!"
  let pcb ← firstObject .freepcbs
  removePcbLink pcb "FATAL ERROR: could not remove link from freepcbsQueue in ProcessFork!"
  ProcessSetStatus pcb PROCESS_STATUS_RUNNABLE
  let _ ← RestoreIntrs intrs
  forkMemory pcb
  if isUser && !loads then
    ProcessFreeResources pcb
    return -1
  let type := if isUser then PROCESS_TYPE_USER else PROCESS_TYPE_SYSTEM
  setPcb pcb fun b => { b with flags := b.flags ||| type }
  let intrs ← DisableIntrs
  allocPcbLink pcb "FATAL ERROR: could not get link for forked PCB in ProcessFork!"
  insertPcbLast .runQueue pcb "FATAL ERROR: could not insert link into runQueue in ProcessFork!"
  let _ ← RestoreIntrs intrs
  let k ← K.read
  -- the first process becomes the current one
  if k.currentPCB = none then K.write fun k => { k with currentPCB := some pcb }
  return pcb

/-- One turn of the loop of `ProcessModuleInit`. -/
def initPcb (pcb : Pid) : K Unit := do
  allocPcbLink pcb "FATAL ERROR: could not allocate link in ProcessModuleInit!"
  setPcb pcb fun b => { b with flags := PROCESS_STATUS_FREE }
  insertPcbFirst .freepcbs pcb
    "FATAL ERROR: could not insert PCB link into queue in ProcessModuleInit!"

def initPcbs : List Pid → K Unit
  | [] => pure ()
  | p :: ps => do
    initPcb p
    initPcbs ps

def ProcessModuleInit : K Unit := do
  let _ ← K.queue (AQueueInit (.client .freepcbs))
  let _ ← K.queue (AQueueInit (.client .runQueue))
  let _ ← K.queue (AQueueInit (.client .waitQueue))
  let _ ← K.queue (AQueueInit (.client .zombieQueue))
  initPcbs (List.finRange PROCESS_MAX_PROCS)
  K.write fun k => { k with currentPCB := none }

end dlxos
