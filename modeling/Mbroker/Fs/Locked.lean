import Mbroker.Fs.Operations
import Mbroker.Lib.Program

/-!
# TécnicoFS: the operations with their mutex

The five operations of `operations.c` as programs over the tables, with
`g_library_mutex` locked and unlocked where the source does: `tfs_open` has five
returns behind an unlock of their own, `tfs_write` three, `tfs_unlink` four, `tfs_close`
and `tfs_read` two.  One access is one step: a load or store of a table element, one
call of a string or memory function on `fs_data`, or a look at the parameters.  Locking
and unlocking succeed.

    tfsCall_guarded : each operation locks once, and unlocks once behind all accesses
    tfsCall_eval    : on its own, each is the function of `Mbroker.Fs.Operations`
-/

namespace Mbroker

namespace Locked

open CLib CLib.Outcome

/-! ## Accesses -/

def loadAt {α : Type} (table : Tfs → Region α) (i : Nat) : Program Tfs α :=
  .look fun s => (table s).load i

def storeInodeTs (i : Nat) (v : AllocationState) : Program Tfs Unit :=
  .change fun s => do
    let freeinodeTs ← s.freeinodeTs.store i v
    return { s with freeinodeTs }

def storeBlockTs (i : Nat) (v : AllocationState) : Program Tfs Unit :=
  .change fun s => do
    let freeBlocks ← s.freeBlocks.store i v
    return { s with freeBlocks }

def storeHandleTs (i : Nat) (v : AllocationState) : Program Tfs Unit :=
  .change fun s => do
    let freeOpenFileEntries ← s.freeOpenFileEntries.store i v
    return { s with freeOpenFileEntries }

/-- A store to one field of inode `i`. -/
def setInode (i : Nat) (f : Inode → Inode) : Program Tfs Unit :=
  .change fun s => do
    let inode ← s.inodeTable.load i
    let inodeTable ← s.inodeTable.store i (f inode)
    return { s with inodeTable }

/-- A store to one field of entry `h` of the open file table. -/
def setFile (h : Nat) (f : OpenFileEntry → OpenFileEntry) : Program Tfs Unit :=
  .change fun s => do
    let file ← s.openFileTable.load h
    let openFileTable ← s.openFileTable.store h (f file)
    return { s with openFileTable }

def storeData (f : Region UInt8 → Outcome (Region UInt8)) : Program Tfs Unit :=
  .change fun s => do
    let fsData ← f s.fsData
    return { s with fsData }

def assert (cond : Tfs → Bool) (msg : String) : Program Tfs Unit :=
  .look fun s => alwaysAssert (cond s) msg

/-! ## The functions of `state.c` -/

def dataBlockAlloc : Program Tfs Int := do
  let dataBlocks ← .look fun s => ok s.dataBlocks
  let found ← Program.forFirst dataBlocks fun i => do
    .look storageDelay
    if (← loadAt Tfs.freeBlocks i) = .free then
      storeBlockTs i .taken
      return some (castInt i)
    else return none
  return found.getD (-1)

def dataBlockFree (blockNumber : Int) : Program Tfs Unit := do
  assert (·.validBlockNumber blockNumber) "data_block_free: invalid block number"
  storeBlockTs blockNumber.toNat .free

def dataBlockGet (blockNumber : Int) : Program Tfs Nat :=
  .look fun s => Mbroker.dataBlockGet s blockNumber

def inodeAlloc : Program Tfs Int := do
  let inodeTableSize ← .look fun s => ok s.inodeTableSize
  let found ← Program.forFirst inodeTableSize fun inumber => do
    .look storageDelay
    if (← loadAt Tfs.freeinodeTs inumber) = .free then
      storeInodeTs inumber .taken
      return some (castInt inumber)
    else return none
  return found.getD (-1)

def inodeDelete (inumber : Int) : Program Tfs Unit := do
  assert (·.validInumber inumber) "inode_delete: invalid inumber"
  let ts ← loadAt Tfs.freeinodeTs inumber.toNat
  assert (fun _ => ts = .taken) "inode_delete: inode already freed"
  let inode ← loadAt Tfs.inodeTable inumber.toNat
  if inode.iSize > 0 then
    let inode ← loadAt Tfs.inodeTable inumber.toNat
    dataBlockFree inode.iDataBlock
    storeInodeTs inumber.toNat .free
  else storeInodeTs inumber.toNat .free

/-- `inode_create(T_FILE)`; the five operations create no directory. -/
def inodeCreateFile : Program Tfs Int := do
  let inumber ← inodeAlloc
  if inumber = -1 then return -1 -- no free slots in inode table
  else
    let i ← .look fun _ => index inumber
    setInode i fun inode => { inode with iNodeType := .tFile }
    setInode i fun inode => { inode with iSize := 0 }
    setInode i fun inode => { inode with iDataBlock := -1 }
    return inumber

def inodeGet (inumber : Int) : Program Tfs Nat := .look fun s => Mbroker.inodeGet s inumber

def clearDirEntry (inode : Nat) (subName : CStr) : Program Tfs Int := do
  let ino ← loadAt Tfs.inodeTable inode
  if ino.iNodeType ≠ .tDirectory then return -1 -- not a directory
  else
    let ino ← loadAt Tfs.inodeTable inode
    let dirEntry ← dataBlockGet ino.iDataBlock
    assert (fun s => nonNull s.fsData dirEntry) "clear_dir_entry: directory must have a data block"
    let maxDirEntries ← .look fun s => ok s.maxDirEntries
    let found ← Program.forFirst maxDirEntries fun i => do
      if (← .look fun s => strcmpEq s.fsData (dName dirEntry i) subName) then
        storeData fun m => storeInt m (dInumber dirEntry i) (-1)
        storeData fun m => memset m (dName dirEntry i) 0 maxFileName
        return some (0 : Int)
      else return none
    return found.getD (-1)

def addDirEntry (inode : Nat) (subName : CStr) (subInumber : Int) : Program Tfs Int := do
  if subName.strlen = 0 ∨ subName.strlen > maxFileName - 1 then return -1 -- invalid sub_name
  else
    let ino ← loadAt Tfs.inodeTable inode
    if ino.iNodeType ≠ .tDirectory then return -1 -- not a directory
    else
      let ino ← loadAt Tfs.inodeTable inode
      let dirEntry ← dataBlockGet ino.iDataBlock
      assert (fun s => nonNull s.fsData dirEntry) "add_dir_entry: directory must have a data block"
      let maxDirEntries ← .look fun s => ok s.maxDirEntries
      let found ← Program.forFirst maxDirEntries fun i => do
        if (← .look fun s => loadInt s.fsData (dInumber dirEntry i)) = -1 then
          storeData fun m => storeInt m (dInumber dirEntry i) subInumber
          storeData fun m => strncpy m (dName dirEntry i) subName (maxFileName - 1)
          storeData fun m => m.store (dName dirEntry i + (maxFileName - 1)) 0
          return some (0 : Int)
        else return none
      return found.getD (-1)

def findInDir (inode : Nat) (subName : CStr) : Program Tfs Int := do
  assert (fun s => nonNull s.inodeTable inode) "find_in_dir: inode must be non-NULL"
  let ino ← loadAt Tfs.inodeTable inode
  if ino.iNodeType ≠ .tDirectory then return -1 -- not a directory
  else
    let ino ← loadAt Tfs.inodeTable inode
    let dirEntry ← dataBlockGet ino.iDataBlock
    assert (fun s => nonNull s.fsData dirEntry)
      "find_in_dir: directory inode must have a data block"
    let maxDirEntries ← .look fun s => ok s.maxDirEntries
    let found ← Program.forFirst (min maxDirEntries (2 ^ 31)) fun i => do
      let d ← .look fun s => loadInt s.fsData (dInumber dirEntry i)
      if d ≠ -1 then
        if (← .look fun s => strncmpEq s.fsData (dName dirEntry i) subName maxFileName) then
          let d ← .look fun s => loadInt s.fsData (dInumber dirEntry i)
          return some d
        else return none
      else return none
    return found.getD (-1)

def addToOpenFileTable (inumber : Int) (offset : Nat) : Program Tfs Int := do
  let maxOpenFiles ← .look fun s => ok s.maxOpenFiles
  let found ← Program.forFirst (min maxOpenFiles (2 ^ 31)) fun i => do
    if (← loadAt Tfs.freeOpenFileEntries i) = .free then
      storeHandleTs i .taken
      setFile i fun file => { file with ofInumber := inumber }
      setFile i fun file => { file with ofOffset := offset }
      return some (castInt i)
    else return none
  return found.getD (-1)

def removeFromOpenFileTable (fhandle : Int) : Program Tfs Unit := do
  assert (·.validFileHandle fhandle) "remove_from_open_file_table: file handle must be valid"
  let ts ← loadAt Tfs.freeOpenFileEntries fhandle.toNat
  assert (fun _ => ts = .taken) "remove_from_open_file_table: file handle must be taken"
  storeHandleTs fhandle.toNat .free

def getOpenFileEntry (fhandle : Int) : Program Tfs (Option Nat) := do
  if !(← .look fun s => ok (s.validFileHandle fhandle)) then return none
  else
    if (← loadAt Tfs.freeOpenFileEntries fhandle.toNat) ≠ .taken then return none
    else return some fhandle.toNat

/-! ## The five operations -/

/-- `pthread_mutex_unlock(&g_library_mutex); return val;` -/
def unlockReturn (val : Int) : Program Tfs Ret := .unlock (.ret ⟨val, []⟩)

def tfsLookup (name : CStr) (rootInode : Nat) : Program Tfs Int := do
  if !validPathname (some name) then return -1
  else findInDir rootInode name.tail

/-- The end of `tfs_open`. -/
def openEnd (inum : Int) (offset : Nat) : Program Tfs Ret := do
  let ret ← addToOpenFileTable inum offset
  unlockReturn ret

/-- `tfs_open` of a file that exists, behind the truncation. -/
def openFound (inum : Int) (i : Nat) (mode : UInt32) : Program Tfs Ret := do
  let inode ← loadAt Tfs.inodeTable i
  openEnd inum (if hasFlag mode tfsOAppend then inode.iSize else 0)

def tfsOpen (name : Option CStr) (mode : UInt32) : Program Tfs Ret :=
  .lock <|
    match name with
    | none => unlockReturn (-1)
    | some path =>
      if !validPathname (some path) then unlockReturn (-1)
      else do
        let rootDirInode ← inodeGet rootDirInum
        assert (fun s => nonNull s.inodeTable rootDirInode) "tfs_open: root dir inode must exist"
        let inum ← tfsLookup path rootDirInode
        if inum ≥ 0 then
          -- The file already exists
          let i ← inodeGet inum
          assert (fun s => nonNull s.inodeTable i) "tfs_open: directory files must have an inode"
          if hasFlag mode tfsOTrunc then
            let inode ← loadAt Tfs.inodeTable i
            if inode.iSize > 0 then
              let inode ← loadAt Tfs.inodeTable i
              dataBlockFree inode.iDataBlock
              setInode i fun inode => { inode with iSize := 0 }
              openFound inum i mode
            else openFound inum i mode
          else openFound inum i mode
        else if hasFlag mode tfsOCreat then
          let inum ← inodeCreateFile
          if inum = -1 then unlockReturn (-1) -- no space in inode table
          else
            if (← addDirEntry rootDirInode path.tail inum) = -1 then
              inodeDelete inum
              unlockReturn (-1) -- no space in directory
            else openEnd inum 0
        else unlockReturn (-1)

def tfsClose (fhandle : Int) : Program Tfs Ret :=
  .lock do
    match ← getOpenFileEntry fhandle with
    | none => unlockReturn (-1) -- invalid fd
    | some _ =>
      removeFromOpenFileTable fhandle
      unlockReturn 0

/-- How many bytes `tfs_write` writes, through the entry `h` of the open file table. -/
def writeCount (h toWrite : Nat) : Program Tfs Nat := do
  let blockSize ← .look fun s => ok (stateBlockSize s)
  let file ← loadAt Tfs.openFileTable h
  if sizeAdd toWrite file.ofOffset > blockSize then
    let file ← loadAt Tfs.openFileTable h
    return sizeSub blockSize file.ofOffset
  else return toWrite

/-- The actual write, behind the allocation of a block. -/
def writeEnd (h i : Nat) (buffer : Nat → UInt8) (toWrite : Nat) : Program Tfs Ret := do
  let inode ← loadAt Tfs.inodeTable i
  let block ← dataBlockGet inode.iDataBlock
  assert (fun s => nonNull s.fsData block) "tfs_write: data block deleted mid-write"
  let file ← loadAt Tfs.openFileTable h
  storeData fun m => m.fill (block + file.ofOffset) toWrite buffer
  setFile h fun file => { file with ofOffset := sizeAdd file.ofOffset toWrite }
  let file ← loadAt Tfs.openFileTable h
  let inode ← loadAt Tfs.inodeTable i
  if file.ofOffset > inode.iSize then
    let file ← loadAt Tfs.openFileTable h
    setInode i fun inode => { inode with iSize := file.ofOffset }
    unlockReturn (castSsize toWrite)
  else unlockReturn (castSsize toWrite)

def tfsWrite (fhandle : Int) (buffer : Nat → UInt8) (toWrite : Nat) : Program Tfs Ret :=
  .lock do
    match ← getOpenFileEntry fhandle with
    | none => unlockReturn (-1)
    | some h =>
      let file ← loadAt Tfs.openFileTable h
      let i ← inodeGet file.ofInumber
      assert (fun s => nonNull s.inodeTable i) "tfs_write: inode of open file deleted"
      let toWrite ← writeCount h toWrite
      if toWrite > 0 then
        let inode ← loadAt Tfs.inodeTable i
        if inode.iSize = 0 then
          let bnum ← dataBlockAlloc
          if bnum = -1 then unlockReturn (-1) -- no space
          else
            setInode i fun inode => { inode with iDataBlock := bnum }
            writeEnd h i buffer toWrite
        else writeEnd h i buffer toWrite
      else unlockReturn (castSsize toWrite)

def tfsRead (fhandle : Int) (len : Nat) : Program Tfs Ret :=
  .lock do
    match ← getOpenFileEntry fhandle with
    | none => unlockReturn (-1)
    | some h =>
      let file ← loadAt Tfs.openFileTable h
      let i ← inodeGet file.ofInumber
      assert (fun s => nonNull s.inodeTable i) "tfs_read: inode of open file deleted"
      let inode ← loadAt Tfs.inodeTable i
      let file ← loadAt Tfs.openFileTable h
      let toRead := clampRead inode.iSize file.ofOffset len
      if toRead > 0 then
        let inode ← loadAt Tfs.inodeTable i
        let block ← dataBlockGet inode.iDataBlock
        assert (fun s => nonNull s.fsData block) "tfs_read: data block deleted mid-read"
        let file ← loadAt Tfs.openFileTable h
        let bytes ← .look fun s => s.fsData.loadN (block + file.ofOffset) toRead
        setFile h fun file => { file with ofOffset := sizeAdd file.ofOffset toRead }
        Program.unlock (.ret ⟨castSsize toRead, bytes⟩)
      else unlockReturn (castSsize toRead)

def tfsUnlink (target : Option CStr) : Program Tfs Ret :=
  .lock <|
    match target with
    | none => unlockReturn (-1)
    | some path =>
      if !validPathname (some path) then unlockReturn (-1)
      else do
        let rootDirInode ← inodeGet rootDirInum
        assert (fun s => nonNull s.inodeTable rootDirInode) "tfs_open: root dir inode must exist"
        let inum ← tfsLookup path rootDirInode
        if inum = -1 then unlockReturn (-1)
        else
          inodeDelete inum
          if (← clearDirEntry rootDirInode path.tail) = -1 then unlockReturn (-1)
          else unlockReturn 0

def tfsCall : Call → Program Tfs Ret
  | .tfsOpen name mode => tfsOpen name mode
  | .tfsClose fhandle => tfsClose fhandle
  | .tfsWrite fhandle buffer toWrite => tfsWrite fhandle buffer toWrite
  | .tfsRead fhandle len => tfsRead fhandle len
  | .tfsUnlink target => tfsUnlink target

/-! ## The discipline -/

theorem dataBlockAlloc_plain : dataBlockAlloc.Plain := by
  refine Program.plain_bind (Program.plain_look _) fun n => ?_
  refine Program.plain_bind (Program.plain_forFirst fun i => ?_) fun _ => trivial
  simp [loadAt, storeBlockTs]

theorem dataBlockFree_plain (blockNumber : Int) : (dataBlockFree blockNumber).Plain := by
  simp [dataBlockFree, assert, storeBlockTs]

theorem inodeAlloc_plain : inodeAlloc.Plain := by
  refine Program.plain_bind (Program.plain_look _) fun n => ?_
  refine Program.plain_bind (Program.plain_forFirst fun i => ?_) fun _ => trivial
  simp [loadAt, storeInodeTs]

theorem inodeDelete_plain (inumber : Int) : (inodeDelete inumber).Plain := by
  simp only [inodeDelete, assert, loadAt, Program.plain_look_bind, Program.plain_ite]
  refine fun _ _ _ inode => ⟨fun _ inode => ?_, fun _ => Program.plain_change _⟩
  exact Program.plain_bind (dataBlockFree_plain _) fun _ => Program.plain_change _

theorem inodeCreateFile_plain : inodeCreateFile.Plain := by
  refine Program.plain_bind inodeAlloc_plain fun inumber => ?_
  simp [setInode]

theorem clearDirEntry_plain (inode : Nat) (subName : CStr) :
    (clearDirEntry inode subName).Plain := by
  simp only [clearDirEntry, assert, loadAt, dataBlockGet, Program.plain_look_bind,
    Program.plain_ite]
  refine fun _ => ⟨fun _ => trivial, fun _ _ dirEntry _ n => ?_⟩
  refine Program.plain_bind (Program.plain_forFirst fun i => ?_) fun _ => trivial
  simp [storeData]

theorem addDirEntry_plain (inode : Nat) (subName : CStr) (subInumber : Int) :
    (addDirEntry inode subName subInumber).Plain := by
  simp only [addDirEntry, assert, loadAt, dataBlockGet, Program.plain_look_bind,
    Program.plain_ite]
  refine ⟨fun _ => trivial, fun _ _ => ⟨fun _ => trivial, fun _ _ dirEntry _ n => ?_⟩⟩
  refine Program.plain_bind (Program.plain_forFirst fun i => ?_) fun _ => trivial
  simp [storeData]

theorem findInDir_plain (inode : Nat) (subName : CStr) : (findInDir inode subName).Plain := by
  simp only [findInDir, assert, loadAt, dataBlockGet, Program.plain_look_bind, Program.plain_ite]
  refine fun _ _ => ⟨fun _ => trivial, fun _ _ dirEntry _ n => ?_⟩
  refine Program.plain_bind (Program.plain_forFirst fun i => ?_) fun _ => trivial
  simp

theorem addToOpenFileTable_plain (inumber : Int) (offset : Nat) :
    (addToOpenFileTable inumber offset).Plain := by
  refine Program.plain_bind (Program.plain_look _) fun n => ?_
  refine Program.plain_bind (Program.plain_forFirst fun i => ?_) fun _ => trivial
  simp [loadAt, storeHandleTs, setFile]

theorem removeFromOpenFileTable_plain (fhandle : Int) : (removeFromOpenFileTable fhandle).Plain := by
  simp [removeFromOpenFileTable, assert, loadAt, storeHandleTs]

theorem getOpenFileEntry_plain (fhandle : Int) : (getOpenFileEntry fhandle).Plain := by
  simp [getOpenFileEntry, loadAt]

theorem tfsLookup_plain (name : CStr) (rootInode : Nat) : (tfsLookup name rootInode).Plain := by
  simp [tfsLookup, findInDir_plain]

theorem openEnd_inside (inum : Int) (offset : Nat) : (openEnd inum offset).Inside :=
  Program.inside_bind (addToOpenFileTable_plain inum offset) fun _ => ⟨_, rfl⟩

theorem openFound_inside (inum : Int) (i : Nat) (mode : UInt32) : (openFound inum i mode).Inside :=
  fun _ => openEnd_inside inum _

theorem tfsOpen_guarded (name : Option CStr) (mode : UInt32) : (tfsOpen name mode).Guarded := by
  cases name with
  | none => exact ⟨_, rfl⟩
  | some path =>
    change Program.Inside _
    simp only [inodeGet, assert, loadAt, setInode, unlockReturn, Program.inside_ite,
      Program.inside_look_bind, Program.inside_unlock, implies_true, true_and]
    refine fun _ _ _ => Program.inside_bind (tfsLookup_plain _ _) fun inum => ?_
    simp only [Program.inside_ite, Program.inside_look_bind, Program.inside_unlock,
      openFound_inside, implies_true, and_true]
    refine ⟨fun _ i _ _ _ _ inode => ?_, fun _ _ => ?_⟩
    · refine Program.inside_bind (dataBlockFree_plain _) fun _ => ?_
      simp [openFound_inside]
    · refine Program.inside_bind inodeCreateFile_plain fun inum => ?_
      simp only [Program.inside_ite, Program.inside_unlock, implies_true, true_and]
      refine fun _ => Program.inside_bind (addDirEntry_plain _ _ _) fun ret => ?_
      simp only [Program.inside_ite, openEnd_inside, implies_true, and_true]
      exact fun _ => Program.inside_bind (inodeDelete_plain _) fun _ => ⟨_, rfl⟩

theorem tfsClose_guarded (fhandle : Int) : (tfsClose fhandle).Guarded := by
  refine Program.inside_bind (getOpenFileEntry_plain fhandle) fun file => ?_
  cases file with
  | none => exact ⟨_, rfl⟩
  | some h => exact Program.inside_bind (removeFromOpenFileTable_plain fhandle) fun _ => ⟨_, rfl⟩

theorem writeEnd_inside (h i : Nat) (buffer : Nat → UInt8) (toWrite : Nat) :
    (writeEnd h i buffer toWrite).Inside := by
  simp [writeEnd, loadAt, dataBlockGet, assert, storeData, setFile, setInode, unlockReturn]

theorem writeCount_plain (h toWrite : Nat) : (writeCount h toWrite).Plain := by
  simp [writeCount, loadAt]

theorem tfsWrite_guarded (fhandle : Int) (buffer : Nat → UInt8) (toWrite : Nat) :
    (tfsWrite fhandle buffer toWrite).Guarded := by
  refine Program.inside_bind (getOpenFileEntry_plain fhandle) fun file => ?_
  cases file with
  | none => exact ⟨_, rfl⟩
  | some h =>
    simp only [loadAt, inodeGet, assert, unlockReturn, Program.inside_look_bind]
    refine fun _ i _ => Program.inside_bind (writeCount_plain h toWrite) fun n => ?_
    simp only [Program.inside_ite, Program.inside_look_bind, Program.inside_unlock,
      writeEnd_inside, implies_true, and_true]
    refine fun _ inode _ => Program.inside_bind dataBlockAlloc_plain fun bnum => ?_
    simp [setInode, writeEnd_inside]

theorem tfsRead_guarded (fhandle : Int) (len : Nat) : (tfsRead fhandle len).Guarded := by
  refine Program.inside_bind (getOpenFileEntry_plain fhandle) fun file => ?_
  cases file with
  | none => exact ⟨_, rfl⟩
  | some h => simp [loadAt, inodeGet, assert, dataBlockGet, setFile, unlockReturn]

theorem tfsUnlink_guarded (target : Option CStr) : (tfsUnlink target).Guarded := by
  cases target with
  | none => exact ⟨_, rfl⟩
  | some path =>
    change Program.Inside _
    simp only [inodeGet, assert, unlockReturn, Program.inside_ite, Program.inside_look_bind,
      Program.inside_unlock, implies_true, true_and]
    refine fun _ _ _ => Program.inside_bind (tfsLookup_plain _ _) fun inum => ?_
    simp only [Program.inside_ite, Program.inside_unlock, implies_true, true_and]
    refine fun _ => Program.inside_bind (inodeDelete_plain _) fun _ => ?_
    refine Program.inside_bind (clearDirEntry_plain _ _) fun ret => ?_
    simp

theorem tfsCall_guarded (c : Call) : (tfsCall c).Guarded := by
  cases c with
  | tfsOpen name mode => exact tfsOpen_guarded name mode
  | tfsClose fhandle => exact tfsClose_guarded fhandle
  | tfsWrite fhandle buffer toWrite => exact tfsWrite_guarded fhandle buffer toWrite
  | tfsRead fhandle len => exact tfsRead_guarded fhandle len
  | tfsUnlink target => exact tfsUnlink_guarded target

end Locked

end Mbroker
