import Mbroker.Lib.CInt
import Mbroker.Lib.CString

/-!
# TécnicoFS: the state layer (`fs/state.c`, `fs/state.h`, `fs/config.h`)

The static tables of `state.c` are one record `Tfs`; each function takes and
returns it.  The contents of malloc'd memory are arbitrary (`Mallocs`), an access
outside an allocated table or `fs_data` is `fault`, a failed `ALWAYS_ASSERT` is
`panic`.  Directory entries live in `fs_data` as the source lays them out: entry
`i` of the block at `a` has `d_name` at `[a + 44 i, a + 44 i + 40)` and
`d_inumber` in the four bytes behind it.

`insert_delay` has no effect on the state; its guard `… % BLOCK_SIZE` divides by
`BLOCK_SIZE` and is kept (`storageDelay`).
-/

namespace Mbroker

open CLib CLib.Outcome

/-! ## Types -/

def rootDirInum : Int := 0
def maxFileName : Nat := 40

structure TfsParams where
  maxInodeCount : Nat
  maxBlockCount : Nat
  maxOpenFilesCount : Nat
  blockSize : Nat
deriving DecidableEq

inductive InodeType where
  | tFile
  | tDirectory
deriving DecidableEq

structure Inode where
  iNodeType : InodeType
  iSize : Nat
  iDataBlock : Int
deriving DecidableEq

inductive AllocationState where
  | free
  | taken
deriving DecidableEq

structure OpenFileEntry where
  ofInumber : Int
  ofOffset : Nat
deriving DecidableEq

/-- `sizeof` of the element types (LP64). -/
def sizeofInode : Nat := 24
def sizeofAllocationState : Nat := 4
def sizeofOpenFileEntry : Nat := 16
def sizeofDirEntry : Nat := 44

/-- The static variables of `state.c`. -/
structure Tfs where
  fsParams : TfsParams
  inodeTable : Region Inode
  freeinodeTs : Region AllocationState
  fsData : Region UInt8
  freeBlocks : Region AllocationState
  openFileTable : Region OpenFileEntry
  freeOpenFileEntries : Region AllocationState

/-- The contents that the six calls of `malloc` in `state_init` return, or NULL. -/
structure Mallocs where
  inodeTable : Option (Nat → Inode)
  freeinodeTs : Option (Nat → AllocationState)
  fsData : Option (Nat → UInt8)
  freeBlocks : Option (Nat → AllocationState)
  openFileTable : Option (Nat → OpenFileEntry)
  freeOpenFileEntries : Option (Nat → AllocationState)

def Inode.zero : Inode := ⟨.tFile, 0, 0⟩

def OpenFileEntry.zero : OpenFileEntry := ⟨0, 0⟩

/-- Before `tfs_init`: every static variable is zero. -/
def Tfs.zero : Tfs where
  fsParams := ⟨0, 0, 0, 0⟩
  inodeTable := Region.null Inode.zero
  freeinodeTs := Region.null .free
  fsData := Region.null 0
  freeBlocks := Region.null .free
  openFileTable := Region.null OpenFileEntry.zero
  freeOpenFileEntries := Region.null .free

namespace Tfs

variable (s : Tfs)

def inodeTableSize : Nat := s.fsParams.maxInodeCount
def dataBlocks : Nat := s.fsParams.maxBlockCount
def maxOpenFiles : Nat := s.fsParams.maxOpenFilesCount
def blockSize : Nat := s.fsParams.blockSize
def maxDirEntries : Nat := s.blockSize / sizeofDirEntry

def validInumber (inumber : Int) : Bool := decide (0 ≤ inumber ∧ inumber.toNat < s.inodeTableSize)

def validBlockNumber (blockNumber : Int) : Bool :=
  decide (0 ≤ blockNumber ∧ blockNumber.toNat < s.dataBlocks)

def validFileHandle (fileHandle : Int) : Bool :=
  decide (0 ≤ fileHandle ∧ fileHandle.toNat < s.maxOpenFiles)

end Tfs

def stateBlockSize (s : Tfs) : Nat := s.blockSize

def alwaysAssert (cond : Bool) (msg : String) : Outcome Unit := if cond then ok () else .panic msg

/-- `&r[p] != NULL`. -/
def nonNull {α : Type} (r : Region α) (p : Nat) : Bool := !(r.isNull && p == 0)

/-- `i * sizeof(allocation_state_t) % BLOCK_SIZE == 0`, the guard of a delay. -/
def storageDelay (s : Tfs) : Outcome Unit := if s.blockSize = 0 then fault else ok ()

/-! ## `state_init` and `state_destroy` -/

def stateInit (s : Tfs) (m : Mallocs) (params : TfsParams) : Outcome (Int × Tfs) :=
  let s := { s with fsParams := params }
  if !s.inodeTable.isNull then ok (-1, s) -- already initialized
  else
    let s := { s with
      inodeTable := .malloc (sizeMul s.inodeTableSize sizeofInode) sizeofInode .zero m.inodeTable
      freeinodeTs := .malloc (sizeMul s.inodeTableSize sizeofAllocationState)
        sizeofAllocationState .free m.freeinodeTs
      fsData := .malloc (sizeMul s.dataBlocks s.blockSize) 1 0 m.fsData
      freeBlocks := .malloc (sizeMul s.dataBlocks sizeofAllocationState)
        sizeofAllocationState .free m.freeBlocks
      openFileTable := .malloc (sizeMul s.maxOpenFiles sizeofOpenFileEntry)
        sizeofOpenFileEntry .zero m.openFileTable
      freeOpenFileEntries := .malloc (sizeMul s.maxOpenFiles sizeofAllocationState)
        sizeofAllocationState .free m.freeOpenFileEntries }
    if s.inodeTable.isNull || s.freeinodeTs.isNull || s.fsData.isNull || s.freeBlocks.isNull ||
        s.openFileTable.isNull || s.freeOpenFileEntries.isNull then
      ok (-1, s) -- allocation failed
    else do
      let freeinodeTs ← s.freeinodeTs.fill 0 s.inodeTableSize (fun _ => .free)
      let freeBlocks ← s.freeBlocks.fill 0 s.dataBlocks (fun _ => .free)
      let freeOpenFileEntries ← s.freeOpenFileEntries.fill 0 s.maxOpenFiles (fun _ => .free)
      return (0, { s with freeinodeTs, freeBlocks, freeOpenFileEntries })

/-- `state_destroy`, which returns 0. -/
def stateDestroy (s : Tfs) : Tfs :=
  { s with
    inodeTable := .null .zero
    freeinodeTs := .null .free
    fsData := .null 0
    freeBlocks := .null .free
    openFileTable := .null .zero
    freeOpenFileEntries := .null .free }

/-! ## Data blocks -/

def dataBlockAlloc (s : Tfs) : Outcome (Int × Tfs) := do
  let found ← forFirst s.dataBlocks fun i => do
    storageDelay s
    if (← s.freeBlocks.load i) = .free then
      let freeBlocks ← s.freeBlocks.store i .taken
      return some (castInt i, { s with freeBlocks })
    else return none
  return found.getD (-1, s)

def dataBlockFree (s : Tfs) (blockNumber : Int) : Outcome Tfs := do
  alwaysAssert (s.validBlockNumber blockNumber) "data_block_free: invalid block number"
  let freeBlocks ← s.freeBlocks.store blockNumber.toNat .free
  return { s with freeBlocks }

/-- The index in `fs_data` of the block's first byte. -/
def dataBlockGet (s : Tfs) (blockNumber : Int) : Outcome Nat := do
  alwaysAssert (s.validBlockNumber blockNumber) "data_block_get: invalid block number"
  return sizeMul blockNumber.toNat s.blockSize

/-! ## Inodes -/

def inodeAlloc (s : Tfs) : Outcome (Int × Tfs) := do
  let found ← forFirst s.inodeTableSize fun inumber => do
    storageDelay s
    if (← s.freeinodeTs.load inumber) = .free then
      let freeinodeTs ← s.freeinodeTs.store inumber .taken
      return some (castInt inumber, { s with freeinodeTs })
    else return none
  return found.getD (-1, s)

def inodeDelete (s : Tfs) (inumber : Int) : Outcome Tfs := do
  alwaysAssert (s.validInumber inumber) "inode_delete: invalid inumber"
  let ts ← s.freeinodeTs.load inumber.toNat
  alwaysAssert (ts = .taken) "inode_delete: inode already freed"
  let inode ← s.inodeTable.load inumber.toNat
  let s ← if inode.iSize > 0 then dataBlockFree s inode.iDataBlock else ok s
  let freeinodeTs ← s.freeinodeTs.store inumber.toNat .free
  return { s with freeinodeTs }

/-- Where the fields of `dir_entry[i]` are. -/
def dName (dirEntry i : Nat) : Nat := dirEntry + sizeofDirEntry * i
def dInumber (dirEntry i : Nat) : Nat := dirEntry + sizeofDirEntry * i + maxFileName

def inodeCreate (s : Tfs) (iType : InodeType) : Outcome (Int × Tfs) := do
  let (inumber, s) ← inodeAlloc s
  if inumber = -1 then return (-1, s) -- no free slots in inode table
  else
    let i ← index inumber
    let inode ← s.inodeTable.load i
    let inodeTable ← s.inodeTable.store i { inode with iNodeType := iType }
    let s := { s with inodeTable }
    match iType with
    | .tDirectory =>
      let (b, s) ← dataBlockAlloc s
      if b = -1 then
        let inode ← s.inodeTable.load i
        let inodeTable ← s.inodeTable.store i { inode with iSize := 0, iDataBlock := -1 }
        let s ← inodeDelete { s with inodeTable } inumber
        return (-1, s)
      else
        let inode ← s.inodeTable.load i
        let inodeTable ← s.inodeTable.store i { inode with iSize := s.blockSize, iDataBlock := b }
        let s := { s with inodeTable }
        let dirEntry ← dataBlockGet s b
        alwaysAssert (nonNull s.fsData dirEntry) "inode_create: data block freed while in use"
        let fsData ← forState (fun i m => storeInt m (dInumber dirEntry i) (-1)) s.maxDirEntries
          s.fsData
        return (inumber, { s with fsData })
    | .tFile =>
      let inode ← s.inodeTable.load i
      let inodeTable ← s.inodeTable.store i { inode with iSize := 0, iDataBlock := -1 }
      return (inumber, { s with inodeTable })

/-- The index in `inode_table`. -/
def inodeGet (s : Tfs) (inumber : Int) : Outcome Nat := do
  alwaysAssert (s.validInumber inumber) "inode_get: invalid inumber"
  return inumber.toNat

/-! ## Directory entries -/

def clearDirEntry (s : Tfs) (inode : Nat) (subName : CStr) : Outcome (Int × Tfs) := do
  let ino ← s.inodeTable.load inode
  if ino.iNodeType ≠ .tDirectory then return (-1, s) -- not a directory
  else
    let dirEntry ← dataBlockGet s ino.iDataBlock
    alwaysAssert (nonNull s.fsData dirEntry) "clear_dir_entry: directory must have a data block"
    let found ← forFirst s.maxDirEntries fun i => do
      if (← strcmpEq s.fsData (dName dirEntry i) subName) then
        let fsData ← storeInt s.fsData (dInumber dirEntry i) (-1)
        let fsData ← memset fsData (dName dirEntry i) 0 maxFileName
        return some ((0 : Int), { s with fsData })
      else return none
    return found.getD (-1, s)

def addDirEntry (s : Tfs) (inode : Nat) (subName : CStr) (subInumber : Int) :
    Outcome (Int × Tfs) := do
  if subName.strlen = 0 ∨ subName.strlen > maxFileName - 1 then
    return (-1, s) -- invalid sub_name
  else
    let ino ← s.inodeTable.load inode
    if ino.iNodeType ≠ .tDirectory then return (-1, s) -- not a directory
    else
      let dirEntry ← dataBlockGet s ino.iDataBlock
      alwaysAssert (nonNull s.fsData dirEntry) "add_dir_entry: directory must have a data block"
      let found ← forFirst s.maxDirEntries fun i => do
        if (← loadInt s.fsData (dInumber dirEntry i)) = -1 then
          let fsData ← storeInt s.fsData (dInumber dirEntry i) subInumber
          let fsData ← strncpy fsData (dName dirEntry i) subName (maxFileName - 1)
          let fsData ← fsData.store (dName dirEntry i + (maxFileName - 1)) 0
          return some ((0 : Int), { s with fsData })
        else return none
      return found.getD (-1, s)

/-- The loop variable is an `int`: behind `INT_MAX` it wraps to a negative number,
which as a `size_t` is past every bound, so at most `2 ^ 31` entries are looked at. -/
def findInDir (s : Tfs) (inode : Nat) (subName : CStr) : Outcome Int := do
  alwaysAssert (nonNull s.inodeTable inode) "find_in_dir: inode must be non-NULL"
  let ino ← s.inodeTable.load inode
  if ino.iNodeType ≠ .tDirectory then return -1 -- not a directory
  else
    let dirEntry ← dataBlockGet s ino.iDataBlock
    alwaysAssert (nonNull s.fsData dirEntry) "find_in_dir: directory inode must have a data block"
    let found ← forFirst (min s.maxDirEntries (2 ^ 31)) fun i => do
      let d ← loadInt s.fsData (dInumber dirEntry i)
      if d ≠ -1 then
        if (← strncmpEq s.fsData (dName dirEntry i) subName maxFileName) then return some d
        else return none
      else return none
    return found.getD (-1)

/-! ## Open file table -/

/-- The loop variable is an `int`, as in `findInDir`. -/
def addToOpenFileTable (s : Tfs) (inumber : Int) (offset : Nat) : Outcome (Int × Tfs) := do
  let found ← forFirst (min s.maxOpenFiles (2 ^ 31)) fun i => do
    if (← s.freeOpenFileEntries.load i) = .free then
      let freeOpenFileEntries ← s.freeOpenFileEntries.store i .taken
      let openFileTable ← s.openFileTable.store i ⟨inumber, offset⟩
      return some (castInt i, { s with freeOpenFileEntries, openFileTable })
    else return none
  return found.getD (-1, s)

def removeFromOpenFileTable (s : Tfs) (fhandle : Int) : Outcome Tfs := do
  alwaysAssert (s.validFileHandle fhandle)
    "remove_from_open_file_table: file handle must be valid"
  let ts ← s.freeOpenFileEntries.load fhandle.toNat
  alwaysAssert (ts = .taken) "remove_from_open_file_table: file handle must be taken"
  let freeOpenFileEntries ← s.freeOpenFileEntries.store fhandle.toNat .free
  return { s with freeOpenFileEntries }

/-- The index in `open_file_table`, or NULL. -/
def getOpenFileEntry (s : Tfs) (fhandle : Int) : Outcome (Option Nat) :=
  if !s.validFileHandle fhandle then ok none
  else do
    if (← s.freeOpenFileEntries.load fhandle.toNat) ≠ .taken then return none
    else return some fhandle.toNat

end Mbroker
