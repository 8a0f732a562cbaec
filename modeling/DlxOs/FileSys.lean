-- The open files of `filesys.c`. The file calls of the simulator under the
-- operating system are not code of the repository: a `Host` answers them.
import DlxOs.Memory
import Mathlib.Data.Finset.Card
import Mathlib.Data.Fintype.Basic

namespace dlxos

open Function

abbrev Byte := BitVec 8

def FS_MODE_READ : Word := 0x1#32
def FS_MODE_WRITE : Word := 0x2#32
def FS_MODE_RW : Word := FS_MODE_READ ||| FS_MODE_WRITE
def FS_SEEK_SET : Int := 0
def FS_SEEK_CUR : Int := 1
def FS_MAX_OPEN_FILES : Nat := 32

instance : NeZero FS_MAX_OPEN_FILES := ⟨by decide⟩

instance Fs.neZero : NeZero 2 := ⟨by decide⟩

abbrev FsSlot := Fin FS_MAX_OPEN_FILES

/-- An entry of the table of open files. The field `u` is the union of `Unix.fd`
and `Dlx.curpos`. -/
structure FsOpenFile where
  fs : Fin 2
  flags : Word
  u : Int

/-- The traps `open`, `read`, `write`, `lseek` and `close` of the simulator. A
read also gives the bytes that it stored: as many as it returns, and not more
than it was asked for. -/
structure Host (H : Type) where
  openFile : List Byte → Word → H → Int × H
  read : Int → Int → H → (Int × List Byte) × H
  write : Int → List Byte → Int → H → Int × H
  lseek : Int → Int → Int → H → Int × H
  close : Int → H → Int × H
  read_stores : ∀ fd n h, (read fd n h).1.2.length = (read fd n h).1.1.toNat
  read_le : ∀ fd n h, (read fd n h).1.2.length ≤ n.toNat

structure FsState (H : Type) where
  openfiles : FsSlot → FsOpenFile
  host : H

variable {H : Type}

namespace FsState

def setFlags (s : FsState H) (i : FsSlot) (flags : Word) : FsState H :=
  { s with openfiles := update s.openfiles i { s.openfiles i with flags } }

def setFs (s : FsState H) (i : FsSlot) (fs : Fin 2) : FsState H :=
  { s with openfiles := update s.openfiles i { s.openfiles i with fs } }

def setU (s : FsState H) (i : FsSlot) (u : Int) : FsState H :=
  { s with openfiles := update s.openfiles i { s.openfiles i with u } }

end FsState

/-- The entry `openfiles[fd]`, for a descriptor in range. -/
def slotOf (fd : Int) : FsSlot := Fin.ofNat FS_MAX_OPEN_FILES fd.toNat

def FdValid (fd : Int) (s : FsState H) : Bool :=
  fd > 0 && fd < FS_MAX_OPEN_FILES && (s.openfiles (slotOf fd)).flags != 0

def FsFreeEntry (x : FsSlot) (s : FsState H) : FsState H := s.setFlags x 0

/-! ## The two file systems -/

/-- The routines of one file system. -/
structure Fs (H : Type) where
  Open : FsSlot → List Byte → Word → FsState H → Int × FsState H
  Read : FsSlot → Int → FsState H → (Int × List Byte) × FsState H
  Write : FsSlot → List Byte → Int → FsState H → Int × FsState H
  Seek : FsSlot → Int → Int → FsState H → Int × FsState H
  Close : FsSlot → FsState H → Int × FsState H

section Unix

variable (host : Host H)

def FsUnixOpen (x : FsSlot) (name : List Byte) (mode : Word) (s : FsState H) : Int × FsState H :=
  let (fd, h) := host.openFile name mode s.host
  let s := { s with host := h }.setU x fd
  if fd < 0 then (fd, s) else (1, s)

def FsUnixRead (x : FsSlot) (n : Int) (s : FsState H) : (Int × List Byte) × FsState H :=
  let (r, h) := host.read (s.openfiles x).u n s.host
  (r, { s with host := h })

def FsUnixWrite (x : FsSlot) (buf : List Byte) (n : Int) (s : FsState H) : Int × FsState H :=
  let (r, h) := host.write (s.openfiles x).u buf n s.host
  (r, { s with host := h })

def FsUnixSeek (x : FsSlot) (offset whence : Int) (s : FsState H) : Int × FsState H :=
  let (r, h) := host.lseek (s.openfiles x).u offset whence s.host
  (r, { s with host := h })

def FsUnixClose (x : FsSlot) (s : FsState H) : Int × FsState H :=
  let (r, h) := host.close (s.openfiles x).u s.host
  (r, { s with host := h })

end Unix

def FsDlxOpen (f : FsSlot) (_name : List Byte) (_mode : Word) (s : FsState H) : Int × FsState H :=
  (1, s.setU f 0)

/-- `FsDlxRead` and `FsDlxWrite` call `FsDlxIo`, which does nothing yet. -/
def FsDlxRead (_f : FsSlot) (_n : Int) (s : FsState H) : (Int × List Byte) × FsState H :=
  ((1, []), s)

def FsDlxWrite (_f : FsSlot) (_buf : List Byte) (_n : Int) (s : FsState H) : Int × FsState H :=
  (1, s)

def FsDlxSeek (f : FsSlot) (_offset _whence : Int) (s : FsState H) : Int × FsState H :=
  ((s.openfiles f).u, s)

def FsDlxClose (_f : FsSlot) (s : FsState H) : Int × FsState H := (1, s)

/-- The table `fs` that `FsModuleInit` fills. -/
def fs (host : Host H) : Fin 2 → Fs H
  | 0 => ⟨FsUnixOpen host, FsUnixRead host, FsUnixWrite host, FsUnixSeek host, FsUnixClose host⟩
  | 1 => ⟨FsDlxOpen, FsDlxRead, FsDlxWrite, FsDlxSeek, FsDlxClose⟩

/-- The state after `FsModuleInit`: every slot is free. -/
def FsModuleInit (s : FsState H) : FsState H :=
  { s with openfiles := fun i => { s.openfiles i with flags := 0 } }

/-! ## The calls -/

/-- `!dstrncmp (name, "dlx:", 4)` -/
def isDlxName (name : List Byte) : Bool := name.take 4 == [100, 108, 120, 58]

variable (host : Host H)

def FsOpen (name : List Byte) (mode : Word) (s : FsState H) : Int × FsState H :=
  let mode := mode &&& FS_MODE_RW
  if mode = 0 then (-1, s)
  else match (List.finRange FS_MAX_OPEN_FILES).find? fun i => (s.openfiles i).flags == 0 with
    | none => (-1, s)
    | some i =>
      let s := s.setFlags i mode
      let (name, s) := if isDlxName name then (name.drop 4, s.setFs i 1) else (name, s.setFs i 0)
      let (retval, s) := (fs host (s.openfiles i).fs).Open i name mode s
      if retval < 0 then (retval, FsFreeEntry i s) else (i, s)

def FsClose (fd : Int) (s : FsState H) : Int × FsState H :=
  if FdValid fd s then
    let (retval, s) := (fs host (s.openfiles (slotOf fd)).fs).Close (slotOf fd) s
    (retval, FsFreeEntry (slotOf fd) s)
  else (-1, s)

def FsRead (fd n : Int) (s : FsState H) : (Int × List Byte) × FsState H :=
  if FdValid fd s then (fs host (s.openfiles (slotOf fd)).fs).Read (slotOf fd) n s
  else ((-1, []), s)

def FsWrite (fd : Int) (buf : List Byte) (n : Int) (s : FsState H) : Int × FsState H :=
  if FdValid fd s then (fs host (s.openfiles (slotOf fd)).fs).Write (slotOf fd) buf n s
  else (-1, s)

def FsSeek (fd offset whence : Int) (s : FsState H) : Int × FsState H :=
  if FdValid fd s then (fs host (s.openfiles (slotOf fd)).fs).Seek (slotOf fd) offset whence s
  else (-1, s)

/-! ## The table as it is seen from outside -/

/-- The entry of a slot in use. What a free slot holds is read by nobody. -/
def FsState.slots (s : FsState H) (i : FsSlot) : Option FsOpenFile :=
  if (s.openfiles i).flags = 0 then none else some (s.openfiles i)

/-- How many slots are in use. -/
def FsState.occupied (s : FsState H) : Nat :=
  (Finset.univ.filter fun i => (s.openfiles i).flags ≠ 0).card

end dlxos
