import Mbroker.Fs.State

/-!
# TécnicoFS: the operations (`fs/operations.c`)

Each operation runs under `g_library_mutex`; here it is one function from the
state before to the state after.  A path is `none` when the caller passes NULL.
`Call` is one call of the interface and `exec` runs it; `Ret` is its return value
with the bytes that `tfs_read` copied into the caller's buffer.
-/

namespace Mbroker

open CLib CLib.Outcome

/-! ## Initialisation -/

def tfsDefaultParams : TfsParams where
  maxInodeCount := 64
  maxBlockCount := 1024
  maxOpenFilesCount := 16
  blockSize := 1024

def tfsInit (s : Tfs) (m : Mallocs) (paramsPtr : Option TfsParams) : Outcome (Int × Tfs) := do
  let params := paramsPtr.getD tfsDefaultParams
  let (ret, s) ← stateInit s m params
  if ret ≠ 0 then return (-1, s)
  else
    -- create root inode
    let (root, s) ← inodeCreate s .tDirectory
    if root ≠ rootDirInum then return (-1, s) else return (0, s)

def tfsDestroy (s : Tfs) : Int × Tfs := (0, stateDestroy s)

/-! ## Paths and modes -/

def tfsOCreat : UInt32 := 0b001
def tfsOTrunc : UInt32 := 0b010
def tfsOAppend : UInt32 := 0b100

/-- `mode & flag`, as a condition. -/
def hasFlag (mode flag : UInt32) : Bool := mode &&& flag != 0

def validPathname : Option CStr → Bool
  | none => false
  | some name => decide (name.strlen > 1) && name.toList.head? == some 47 -- '/'

def tfsLookup (s : Tfs) (name : CStr) (rootInode : Nat) : Outcome Int := do
  if !validPathname (some name) then return -1
  else findInDir s rootInode name.tail

/-! ## The five operations -/

/-- `TFS_O_TRUNC` on inode `i`. -/
def truncateInode (s : Tfs) (i : Nat) : Outcome Tfs := do
  let inode ← s.inodeTable.load i
  if inode.iSize > 0 then
    let s ← dataBlockFree s inode.iDataBlock
    let inodeTable ← s.inodeTable.store i { inode with iSize := 0 }
    return { s with inodeTable }
  else return s

/-- The part of `tfs_open` behind the lookup of `name`. -/
def tfsOpenAt (s : Tfs) (name : CStr) (mode : UInt32) (rootDirInode : Nat) (inum : Int) :
    Outcome (Int × Tfs) := do
  if inum ≥ 0 then
    -- The file already exists
    let i ← inodeGet s inum
    alwaysAssert (nonNull s.inodeTable i) "tfs_open: directory files must have an inode"
    let s ← if hasFlag mode tfsOTrunc then truncateInode s i else ok s
    let inode ← s.inodeTable.load i
    let offset := if hasFlag mode tfsOAppend then inode.iSize else 0
    addToOpenFileTable s inum offset
  else if hasFlag mode tfsOCreat then
    let (inum, s) ← inodeCreate s .tFile
    if inum = -1 then return (-1, s) -- no space in inode table
    else
      let (ret, s) ← addDirEntry s rootDirInode name.tail inum
      if ret = -1 then
        let s ← inodeDelete s inum
        return (-1, s) -- no space in directory
      else addToOpenFileTable s inum 0
  else return (-1, s)

def tfsOpen (s : Tfs) (name : Option CStr) (mode : UInt32) : Outcome (Int × Tfs) := do
  match name with
  | none => return (-1, s)
  | some path =>
    if !validPathname (some path) then return (-1, s)
    else
      let rootDirInode ← inodeGet s rootDirInum
      alwaysAssert (nonNull s.inodeTable rootDirInode) "tfs_open: root dir inode must exist"
      let inum ← tfsLookup s path rootDirInode
      tfsOpenAt s path mode rootDirInode inum

def tfsClose (s : Tfs) (fhandle : Int) : Outcome (Int × Tfs) := do
  match ← getOpenFileEntry s fhandle with
  | none => return (-1, s) -- invalid fd
  | some _ =>
    let s ← removeFromOpenFileTable s fhandle
    return (0, s)

/-- How many bytes `tfs_write` writes at offset `offset`. -/
def clampWrite (blockSize offset toWrite : Nat) : Nat :=
  if sizeAdd toWrite offset > blockSize then sizeSub blockSize offset else toWrite

/-- How many bytes `tfs_read` reads at offset `offset` of a file of `size` bytes. -/
def clampRead (size offset len : Nat) : Nat :=
  if sizeSub size offset > len then len else sizeSub size offset

/-- The block of inode `i` for a write: an empty file gets a new one, if there is space. -/
def allocForWrite (s : Tfs) (i : Nat) : Outcome (Bool × Tfs) := do
  let inode ← s.inodeTable.load i
  if inode.iSize = 0 then
    let (bnum, s) ← dataBlockAlloc s
    if bnum = -1 then return (false, s)
    else
      let inodeTable ← s.inodeTable.store i { inode with iDataBlock := bnum }
      return (true, { s with inodeTable })
  else return (true, s)

/-- The actual write of `tfs_write`, through the open file entry `h` of inode `i`. -/
def writeBytes (s : Tfs) (h i : Nat) (buffer : Nat → UInt8) (toWrite : Nat) : Outcome Tfs := do
  let file ← s.openFileTable.load h
  let inode ← s.inodeTable.load i
  let block ← dataBlockGet s inode.iDataBlock
  alwaysAssert (nonNull s.fsData block) "tfs_write: data block deleted mid-write"
  let fsData ← s.fsData.fill (block + file.ofOffset) toWrite buffer
  let ofOffset := sizeAdd file.ofOffset toWrite
  let openFileTable ← s.openFileTable.store h { file with ofOffset }
  if ofOffset > inode.iSize then
    let inodeTable ← s.inodeTable.store i { inode with iSize := ofOffset }
    return { s with fsData, openFileTable, inodeTable }
  else return { s with fsData, openFileTable }

def tfsWrite (s : Tfs) (fhandle : Int) (buffer : Nat → UInt8) (toWrite : Nat) :
    Outcome (Int × Tfs) := do
  match ← getOpenFileEntry s fhandle with
  | none => return (-1, s)
  | some h =>
    let file ← s.openFileTable.load h
    let i ← inodeGet s file.ofInumber
    alwaysAssert (nonNull s.inodeTable i) "tfs_write: inode of open file deleted"
    let toWrite := clampWrite (stateBlockSize s) file.ofOffset toWrite
    if toWrite > 0 then
      let (space, s) ← allocForWrite s i
      if !space then return (-1, s) -- no space
      else
        let s ← writeBytes s h i buffer toWrite
        return (castSsize toWrite, s)
    else return (castSsize toWrite, s)

/-- The bytes are those copied into the caller's buffer. -/
def tfsRead (s : Tfs) (fhandle : Int) (len : Nat) : Outcome (Int × List UInt8 × Tfs) := do
  match ← getOpenFileEntry s fhandle with
  | none => return (-1, [], s)
  | some h =>
    let file ← s.openFileTable.load h
    let i ← inodeGet s file.ofInumber
    alwaysAssert (nonNull s.inodeTable i) "tfs_read: inode of open file deleted"
    let inode ← s.inodeTable.load i
    let toRead := clampRead inode.iSize file.ofOffset len
    if toRead > 0 then
      let block ← dataBlockGet s inode.iDataBlock
      alwaysAssert (nonNull s.fsData block) "tfs_read: data block deleted mid-read"
      let bytes ← s.fsData.loadN (block + file.ofOffset) toRead
      let openFileTable ← s.openFileTable.store h
        { file with ofOffset := sizeAdd file.ofOffset toRead }
      return (castSsize toRead, bytes, { s with openFileTable })
    else return (castSsize toRead, [], s)

def tfsUnlink (s : Tfs) (target : Option CStr) : Outcome (Int × Tfs) := do
  match target with
  | none => return (-1, s)
  | some path =>
    if !validPathname (some path) then return (-1, s)
    else
      let rootDirInode ← inodeGet s rootDirInum
      alwaysAssert (nonNull s.inodeTable rootDirInode) "tfs_open: root dir inode must exist"
      let inum ← tfsLookup s path rootDirInode
      if inum = -1 then return (-1, s)
      else
        let s ← inodeDelete s inum
        let (ret, s) ← clearDirEntry s rootDirInode path.tail
        if ret = -1 then return (-1, s) else return (0, s)

/-! ## Calls -/

inductive Call where
  | tfsOpen (name : Option CStr) (mode : UInt32)
  | tfsClose (fhandle : Int)
  | tfsWrite (fhandle : Int) (buffer : Nat → UInt8) (toWrite : Nat)
  | tfsRead (fhandle : Int) (len : Nat)
  | tfsUnlink (target : Option CStr)

/-- A return value, with the bytes that `tfs_read` delivered. -/
structure Ret where
  val : Int
  bytes : List UInt8
deriving DecidableEq

def exec (s : Tfs) : Call → Outcome (Ret × Tfs)
  | .tfsOpen name mode => do
    let (v, s) ← tfsOpen s name mode
    return (⟨v, []⟩, s)
  | .tfsClose fhandle => do
    let (v, s) ← tfsClose s fhandle
    return (⟨v, []⟩, s)
  | .tfsWrite fhandle buffer toWrite => do
    let (v, s) ← tfsWrite s fhandle buffer toWrite
    return (⟨v, []⟩, s)
  | .tfsRead fhandle len => do
    let (v, bytes, s) ← tfsRead s fhandle len
    return (⟨v, bytes⟩, s)
  | .tfsUnlink target => do
    let (v, s) ← tfsUnlink s target
    return (⟨v, []⟩, s)

end Mbroker
