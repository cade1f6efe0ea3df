import Mbroker.Fs.Locked
import Mbroker.Fs.Structure
import Mbroker.Lib.Monitor

/-!
# Calls of TécnicoFS by several threads

On its own, the program of an operation is its function in `Mbroker.Fs.Operations`
(`tfsCall_eval`).  With any number of threads, each at any step of its calls, the mutex
makes every run one of whole calls.

    serialised_run : only the owner of the mutex accesses a table or unlocks, every path
      unlocks once, and the results and the state are those of the calls one at a time in
      the order in which they locked
-/

namespace Mbroker

namespace Locked

open CLib CLib.Outcome

/-! ## The operations on their own -/

/-- A loop that ends in a result and leaves the state as it is elsewhere. -/
theorem eval_search {β : Type} {n : Nat} {body : Nat → Program Tfs (Option β)} {s : Tfs} (d : β)
    {f : Nat → Outcome (Option (β × Tfs))}
    (h : ∀ i, (body i).eval s = f i >>= fun r => ok (r.map Prod.fst, (r.map Prod.snd).getD s)) :
    ((Program.forFirst n body).eval s >>= fun found => ok (found.1.getD d, found.2)) =
      forFirst n f >>= fun found => ok (found.getD (d, s)) := by
  rw [Program.eval_forFirst h, Outcome.bind_assoc]
  refine bind_congr fun r _ => ?_
  cases r with
  | none => rfl
  | some b => rfl

theorem dataBlockAlloc_eval (s : Tfs) : dataBlockAlloc.eval s = Mbroker.dataBlockAlloc s := by
  unfold dataBlockAlloc Mbroker.dataBlockAlloc
  rw [Program.eval_bind, Program.eval_look, ok_bind, ok_bind, Program.eval_bind]
  refine eval_search (-1) fun i => ?_
  simp only [loadAt, storeBlockTs, Program.eval_bind, Program.eval_look, Program.eval_ite,
    Program.eval_change, Program.eval_pure, Outcome.bind_assoc, ite_bind, ok_bind, pure_eq,
    Option.map_some, Option.getD_some, Option.map_none, Option.getD_none]

theorem inodeAlloc_eval (s : Tfs) : inodeAlloc.eval s = Mbroker.inodeAlloc s := by
  unfold inodeAlloc Mbroker.inodeAlloc
  rw [Program.eval_bind, Program.eval_look, ok_bind, ok_bind, Program.eval_bind]
  refine eval_search (-1) fun i => ?_
  simp only [loadAt, storeInodeTs, Program.eval_bind, Program.eval_look, Program.eval_ite,
    Program.eval_change, Program.eval_pure, Outcome.bind_assoc, ite_bind, ok_bind, pure_eq,
    Option.map_some, Option.getD_some, Option.map_none, Option.getD_none]

theorem dataBlockFree_eval (s : Tfs) (b : Int) :
    (dataBlockFree b).eval s = Mbroker.dataBlockFree s b >>= fun s' => ok ((), s') := by
  simp only [dataBlockFree, Mbroker.dataBlockFree, assert, storeBlockTs, Program.eval_bind,
    Program.eval_look, Program.eval_change, Outcome.bind_assoc, ok_bind, pure_eq]

theorem dataBlockFree_inodeTable {s s' : Tfs} {b : Int} (h : Mbroker.dataBlockFree s b = ok s') :
    s'.inodeTable = s.inodeTable := by
  simp only [Mbroker.dataBlockFree, bind_eq_ok, pure_eq, ok.injEq] at h
  obtain ⟨-, -, freeBlocks, -, rfl⟩ := h
  rfl

theorem inodeDelete_eval (s : Tfs) (inumber : Int) :
    (inodeDelete inumber).eval s = Mbroker.inodeDelete s inumber >>= fun s' => ok ((), s') := by
  simp only [inodeDelete, Mbroker.inodeDelete, assert, loadAt, storeInodeTs, dataBlockFree_eval,
    Program.eval_bind, Program.eval_look, Program.eval_ite, Program.eval_change,
    Outcome.bind_assoc, ite_bind, ok_bind, pure_eq]
  refine bind_congr fun _ _ => bind_congr fun ts _ => bind_congr fun _ _ => ?_
  -- the source loads the inode once more for the block
  refine bind_congr fun inode hinode => ?_
  rw [hinode, ok_bind]

theorem inodeCreateFile_eval (s : Tfs) :
    inodeCreateFile.eval s = inodeCreate s .tFile := by
  simp only [inodeCreateFile, inodeCreate, setInode, inodeAlloc_eval, Program.eval_bind,
    Program.eval_look, Program.eval_ite, Program.eval_change, Program.eval_pure,
    Outcome.bind_assoc, ok_bind, pure_eq]
  refine bind_congr fun q _ => ?_
  split
  · rfl
  · refine bind_congr fun i _ => ?_
    exact (bind_congr fun a _ => bind_congr fun r _ => Region.update_update _ _ _ _ _).trans rfl

theorem clearDirEntry_eval (s : Tfs) (inode : Nat) (subName : CStr) :
    (clearDirEntry inode subName).eval s = Mbroker.clearDirEntry s inode subName := by
  simp only [clearDirEntry, Mbroker.clearDirEntry, loadAt, dataBlockGet, assert, Program.eval_bind,
    Program.eval_look, Program.eval_ite, Program.eval_pure, Outcome.bind_assoc, ok_bind, pure_eq]
  refine bind_congr fun ino hino => ?_
  rw [hino, ok_bind]
  split
  · rfl
  · refine bind_congr fun dirEntry _ => bind_congr fun _ _ => ?_
    refine eval_search (-1) fun i => ?_
    simp only [storeData, Program.eval_bind, Program.eval_look, Program.eval_ite,
      Program.eval_change, Program.eval_pure, Outcome.bind_assoc, ite_bind, ok_bind, pure_eq,
      Option.map_some, Option.getD_some, Option.map_none, Option.getD_none]

theorem addDirEntry_eval (s : Tfs) (inode : Nat) (subName : CStr) (subInumber : Int) :
    (addDirEntry inode subName subInumber).eval s =
      Mbroker.addDirEntry s inode subName subInumber := by
  simp only [addDirEntry, Mbroker.addDirEntry, loadAt, dataBlockGet, assert, Program.eval_bind,
    Program.eval_look, Program.eval_ite, Program.eval_pure, Outcome.bind_assoc, ok_bind, pure_eq]
  split
  · rfl
  · refine bind_congr fun ino hino => ?_
    rw [hino, ok_bind]
    split
    · rfl
    · refine bind_congr fun dirEntry _ => bind_congr fun _ _ => ?_
      refine eval_search (-1) fun i => ?_
      simp only [storeData, Program.eval_bind, Program.eval_look, Program.eval_ite,
        Program.eval_change, Program.eval_pure, Outcome.bind_assoc, ite_bind, ok_bind, pure_eq,
        Option.map_some, Option.getD_some, Option.map_none, Option.getD_none]

theorem findInDir_eval (s : Tfs) (inode : Nat) (subName : CStr) :
    (findInDir inode subName).eval s =
      Mbroker.findInDir s inode subName >>= fun inum => ok (inum, s) := by
  simp only [findInDir, Mbroker.findInDir, loadAt, dataBlockGet, assert, Program.eval_bind,
    Program.eval_look, Program.eval_ite, Program.eval_pure, Outcome.bind_assoc, ite_bind, ok_bind,
    pure_eq]
  refine bind_congr fun _ _ => bind_congr fun ino hino => ?_
  rw [hino, ok_bind]
  split
  · rfl
  · refine bind_congr fun dirEntry _ => bind_congr fun _ _ => ?_
    refine (congrArg (· >>= _) (Program.eval_forFirst_look fun i => ?_)).trans
      (Outcome.bind_assoc _ _ _)
    simp only [Program.eval_bind, Program.eval_look, Program.eval_ite, Program.eval_pure,
      Outcome.bind_assoc, ite_bind, ok_bind]
    refine bind_congr fun d hd => ?_
    rw [hd, ok_bind]

theorem removeFromOpenFileTable_eval (s : Tfs) (fhandle : Int) :
    (removeFromOpenFileTable fhandle).eval s =
      Mbroker.removeFromOpenFileTable s fhandle >>= fun s' => ok ((), s') := by
  simp only [removeFromOpenFileTable, Mbroker.removeFromOpenFileTable, assert, loadAt,
    storeHandleTs, Program.eval_bind, Program.eval_look, Program.eval_change, Outcome.bind_assoc,
    ok_bind, pure_eq]

theorem getOpenFileEntry_eval (s : Tfs) (fhandle : Int) :
    (getOpenFileEntry fhandle).eval s =
      Mbroker.getOpenFileEntry s fhandle >>= fun h => ok (h, s) := by
  simp only [getOpenFileEntry, Mbroker.getOpenFileEntry, loadAt, Program.eval_bind,
    Program.eval_look, Program.eval_ite, Program.eval_pure, Outcome.bind_assoc, ite_bind, ok_bind,
    pure_eq]

theorem addToOpenFileTable_eval (s : Tfs) (inumber : Int) (offset : Nat) :
    (addToOpenFileTable inumber offset).eval s =
      Mbroker.addToOpenFileTable s inumber offset := by
  unfold addToOpenFileTable Mbroker.addToOpenFileTable
  rw [Program.eval_bind, Program.eval_look, ok_bind, ok_bind, Program.eval_bind]
  refine eval_search (-1) fun i => ?_
  simp only [loadAt, storeHandleTs, setFile, Program.eval_bind, Program.eval_look,
    Program.eval_ite, Program.eval_change, Program.eval_pure, Outcome.bind_assoc, ite_bind, ok_bind,
    pure_eq, Option.map_some, Option.getD_some, Option.map_none, Option.getD_none]
  refine bind_congr fun ts _ => ?_
  split
  · refine bind_congr fun freeOpenFileEntries _ => ?_
    exact (Region.update_update _ _ _ _ _).trans
      (Region.store_after_load s.openFileTable i ⟨inumber, offset⟩ _)
  · rfl

theorem tfsLookup_eval (s : Tfs) (name : CStr) (rootInode : Nat) :
    (tfsLookup name rootInode).eval s =
      Mbroker.tfsLookup s name rootInode >>= fun inum => ok (inum, s) := by
  simp only [tfsLookup, Mbroker.tfsLookup, Program.eval_ite, Program.eval_pure, pure_eq]
  split
  · rw [ok_bind]
  · exact findInDir_eval s rootInode name.tail

theorem openEnd_eval (s : Tfs) (inum : Int) (offset : Nat) :
    (openEnd inum offset).eval s =
      Mbroker.addToOpenFileTable s inum offset >>= fun r => ok (⟨r.1, []⟩, r.2) := by
  simp only [openEnd, unlockReturn, Program.eval_bind, addToOpenFileTable_eval,
    Program.eval_unlock, Program.eval_ret]

theorem openFound_eval (s : Tfs) (inum : Int) (i : Nat) (mode : UInt32) :
    (openFound inum i mode).eval s =
      (do
        let inode ← s.inodeTable.load i
        let offset := if hasFlag mode tfsOAppend then inode.iSize else 0
        Mbroker.addToOpenFileTable s inum offset) >>= fun r => ok (⟨r.1, []⟩, r.2) := by
  simp only [openFound, loadAt, Program.eval_bind, Program.eval_look, openEnd_eval,
    Outcome.bind_assoc, ok_bind]

/-- The truncation and what follows it. -/
theorem truncate_eval (s : Tfs) (inum : Int) (i : Nat) (mode : UInt32) :
    (do
      let inode ← loadAt Tfs.inodeTable i
      if inode.iSize > 0 then
        let inode ← loadAt Tfs.inodeTable i
        dataBlockFree inode.iDataBlock
        setInode i fun inode => { inode with iSize := 0 }
        openFound inum i mode
      else openFound inum i mode).eval s =
      truncateInode s i >>= fun s => (openFound inum i mode).eval s := by
  simp only [truncateInode, loadAt, setInode, Program.eval_bind, Program.eval_look,
    Program.eval_ite, Program.eval_change, dataBlockFree_eval, Outcome.bind_assoc, ok_bind, pure_eq]
  refine bind_congr fun inode hinode => ?_
  split
  · rw [hinode]
    simp only [Outcome.bind_assoc, ok_bind]
    refine bind_congr fun s' hs' => ?_
    rw [dataBlockFree_inodeTable hs', hinode, ok_bind]
  · rw [ok_bind]

theorem tfsOpen_eval (s : Tfs) (name : Option CStr) (mode : UInt32) :
    (tfsOpen name mode).eval s =
      Mbroker.tfsOpen s name mode >>= fun r => ok (⟨r.1, []⟩, r.2) := by
  cases name with
  | none => simp [tfsOpen, Mbroker.tfsOpen, unlockReturn]
  | some path =>
    simp only [tfsOpen, Mbroker.tfsOpen, tfsOpenAt, unlockReturn, inodeGet, assert, ↓truncate_eval,
      openFound_eval, openEnd_eval, tfsLookup_eval, inodeCreateFile_eval, addDirEntry_eval,
      inodeDelete_eval, Program.eval_lock, Program.eval_ite, Program.eval_bind, Program.eval_look,
      Program.eval_unlock, Program.eval_ret, ite_bind, Outcome.bind_assoc, ok_bind, pure_eq]

theorem tfsClose_eval (s : Tfs) (fhandle : Int) :
    (tfsClose fhandle).eval s = Mbroker.tfsClose s fhandle >>= fun r => ok (⟨r.1, []⟩, r.2) := by
  simp only [tfsClose, Mbroker.tfsClose, Program.eval_lock, Program.eval_bind,
    getOpenFileEntry_eval, Outcome.bind_assoc, ok_bind, pure_eq]
  refine bind_congr fun file _ => ?_
  cases file with
  | none => simp only [unlockReturn, Program.eval_unlock, Program.eval_ret, ok_bind]
  | some h =>
    simp only [unlockReturn, removeFromOpenFileTable_eval, Program.eval_bind, Program.eval_unlock,
      Program.eval_ret, Outcome.bind_assoc, ok_bind]

theorem tfsUnlink_eval (s : Tfs) (target : Option CStr) :
    (tfsUnlink target).eval s = Mbroker.tfsUnlink s target >>= fun r => ok (⟨r.1, []⟩, r.2) := by
  cases target with
  | none => simp [tfsUnlink, Mbroker.tfsUnlink, unlockReturn]
  | some path =>
    simp only [tfsUnlink, Mbroker.tfsUnlink, unlockReturn, inodeGet, assert, tfsLookup_eval,
      inodeDelete_eval, clearDirEntry_eval, Program.eval_lock, Program.eval_ite, Program.eval_bind,
      Program.eval_look, Program.eval_unlock, Program.eval_ret, ite_bind, Outcome.bind_assoc,
      ok_bind, pure_eq]

theorem tfsRead_eval (s : Tfs) (fhandle : Int) (len : Nat) :
    (tfsRead fhandle len).eval s =
      Mbroker.tfsRead s fhandle len >>= fun r => ok (⟨r.1, r.2.1⟩, r.2.2) := by
  simp only [tfsRead, Mbroker.tfsRead, Program.eval_lock, Program.eval_bind,
    getOpenFileEntry_eval, Outcome.bind_assoc, ok_bind, pure_eq]
  refine bind_congr fun entry _ => ?_
  cases entry with
  | none => simp only [unlockReturn, Program.eval_unlock, Program.eval_ret, ok_bind]
  | some h =>
    simp only [unlockReturn, loadAt, inodeGet, assert, dataBlockGet, setFile, Program.eval_ite,
      Program.eval_bind, Program.eval_look, Program.eval_change, Program.eval_unlock,
      Program.eval_ret, ite_bind, Outcome.bind_assoc, ok_bind, pure_eq]
    refine bind_congr fun file hfile => bind_congr fun i _ => bind_congr fun _ _ =>
      bind_congr fun inode hinode => ?_
    simp only [hfile, hinode, ok_bind]

theorem writeCount_eval {s : Tfs} {h : Nat} {file : OpenFileEntry}
    (hfile : s.openFileTable.load h = ok file) (toWrite : Nat) :
    (writeCount h toWrite).eval s =
      ok (clampWrite (stateBlockSize s) file.ofOffset toWrite, s) := by
  simp only [writeCount, clampWrite, loadAt, Program.eval_ite, Program.eval_bind,
    Program.eval_look, Program.eval_pure, hfile, ok_bind]
  split
  · rfl
  · rfl

/-- The allocation of a block leaves the inode table and the open file table alone. -/
theorem dataBlockAlloc_tables {s s' : Tfs} {b : Int} (h : Mbroker.dataBlockAlloc s = ok (b, s')) :
    s'.inodeTable = s.inodeTable ∧ s'.openFileTable = s.openFileTable := by
  obtain ⟨found, hfound, h⟩ := (bind_eq_ok _ _ _).mp h
  cases found with
  | none =>
    cases h
    exact ⟨rfl, rfl⟩
  | some r =>
    obtain ⟨i, hi⟩ := forFirst_body hfound
    obtain ⟨-, -, hi⟩ := (bind_eq_ok _ _ _).mp hi
    obtain ⟨ts, -, hi⟩ := (bind_eq_ok _ _ _).mp hi
    split at hi
    · obtain ⟨freeBlocks, -, hi⟩ := (bind_eq_ok _ _ _).mp hi
      rw [pure_eq, ok.injEq, Option.some.injEq] at hi
      rw [pure_eq, ok.injEq, ← hi] at h
      obtain rfl : _ = s' := congrArg Prod.snd h
      exact ⟨rfl, rfl⟩
    · cases hi

theorem writeEnd_eval {s : Tfs} {h : Nat} {file : OpenFileEntry}
    (hfile : s.openFileTable.load h = ok file) (i : Nat) (buffer : Nat → UInt8) (toWrite : Nat) :
    (writeEnd h i buffer toWrite).eval s =
      writeBytes s h i buffer toWrite >>= fun s' => ok (⟨castSsize toWrite, []⟩, s') := by
  simp only [writeEnd, writeBytes, unlockReturn, loadAt, dataBlockGet, assert, storeData, setFile,
    setInode, Program.eval_ite, Program.eval_bind, Program.eval_look, Program.eval_change,
    Program.eval_unlock, Program.eval_ret, ite_bind, Outcome.bind_assoc, ok_bind, pure_eq, hfile]
  refine bind_congr fun inode hinode => bind_congr fun block _ => bind_congr fun _ _ =>
    bind_congr fun fsData _ => bind_congr fun openFileTable hstore => ?_
  simp only [Region.load_after_store hstore, hinode, ok_bind]

theorem tfsWrite_eval (s : Tfs) (fhandle : Int) (buffer : Nat → UInt8) (toWrite : Nat) :
    (tfsWrite fhandle buffer toWrite).eval s =
      Mbroker.tfsWrite s fhandle buffer toWrite >>= fun r => ok (⟨r.1, []⟩, r.2) := by
  simp only [tfsWrite, Mbroker.tfsWrite, Program.eval_lock, Program.eval_bind,
    getOpenFileEntry_eval, Outcome.bind_assoc, ok_bind, pure_eq]
  refine bind_congr fun entry _ => ?_
  cases entry with
  | none => simp only [unlockReturn, Program.eval_unlock, Program.eval_ret, ok_bind]
  | some h =>
    simp only [unlockReturn, loadAt, inodeGet, assert, Program.eval_bind, Program.eval_look,
      Outcome.bind_assoc, ok_bind]
    refine bind_congr fun file hfile => bind_congr fun i _ => bind_congr fun _ _ => ?_
    rw [writeCount_eval hfile, ok_bind]
    generalize clampWrite (stateBlockSize s) file.ofOffset toWrite = n
    simp only [allocForWrite, setInode, Program.eval_ite, Program.eval_bind, Program.eval_look,
      Program.eval_change, Program.eval_unlock, Program.eval_ret, dataBlockAlloc_eval,
      writeEnd_eval hfile, ite_bind, Outcome.bind_assoc, ok_bind, pure_eq]
    split
    · refine bind_congr fun inode hinode => ?_
      split
      · refine bind_congr fun r hr => ?_
        obtain ⟨hinodes, hfiles⟩ := dataBlockAlloc_tables hr
        split
        · simp
        · rw [hinodes, hinode, ok_bind]
          refine bind_congr fun inodeTable _ => ?_
          rw [← hfiles] at hfile
          rw [writeEnd_eval (s := { r.2 with inodeTable }) hfile]
          simp
      · simp
    · rfl

theorem tfsCall_eval (s : Tfs) (c : Call) : (tfsCall c).eval s = exec s c := by
  cases c with
  | tfsOpen name mode => exact tfsOpen_eval s name mode
  | tfsClose fhandle => exact tfsClose_eval s fhandle
  | tfsWrite fhandle buffer toWrite => exact tfsWrite_eval s fhandle buffer toWrite
  | tfsRead fhandle len => exact tfsRead_eval s fhandle len
  | tfsUnlink target => exact tfsUnlink_eval s target

end Locked

/-! ## Threads -/

open CLib CLib.Outcome Monitor

section
variable {ι : Type} [DecidableEq ι]

/-- In state `m` the calls that have unlocked gave the answers `rs` and left the state `s`, as they
do one at a time in the order in which they locked; at most one call is behind its lock and before
its unlock. -/
structure OneAtATime (s₀ : Tfs) (calls : ι → List Call) (m : Monitor Tfs Call Ret ι)
    (rs : List Ret) (s : Tfs) : Prop where
  run : run exec s₀ (m.released.map Prod.snd) = ok (rs, s)
  order : m.acquired = m.released ∨ ∃ e, m.acquired = m.released ++ [e]
  final : m.owner = none → m.acquired = m.released ∧ m.shared = s
  returned : ∀ t, m.returned t ++ pendingResult (m.current t) = resultsOf t m.released rs
  called : ∀ t, callsOf t m.acquired ++ pendingCall (m.current t) ++ m.calls t = calls t

theorem serial_eq_exec : serial Locked.tfsCall = exec :=
  funext fun s => funext fun c => Locked.tfsCall_eval s c

theorem oneAtATime_of_serial {s₀ s : Tfs} {calls : ι → List Call} {m : Monitor Tfs Call Ret ι}
    {rs : List Ret} (h : Serial Locked.tfsCall s₀ calls m rs s) : OneAtATime s₀ calls m rs s where
  run := by
    rw [← serial_eq_exec]
    exact h.run
  order := by
    cases hown : m.owner with
    | none => exact Or.inl (h.free hown).1
    | some t =>
      obtain ⟨c, -, -, -, hacq, -⟩ := h.inside t hown
      exact Or.inr ⟨_, hacq⟩
  final := h.free
  returned := h.results
  called := h.order

/-- In every interleaving: an access or an unlock is one of the owner of the mutex; each path of a
call locks and unlocks once; all calls are as if made one at a time; and a call that ends the
process would end it then too. -/
theorem serialised_run {s₀ : Tfs} {calls : ι → List Call} {m : Monitor Tfs Call Ret ι}
    (h : Reaches Locked.tfsCall (start s₀ calls) m) :
    (∀ t, m.Accesses t ∨ m.Unlocks t → m.owner = some t) ∧
    (∀ c es r, (Locked.tfsCall c).Path es r →
      ∃ n, es = .lock :: (List.replicate n .access ++ [.unlock])) ∧
    (∃ rs s, OneAtATime s₀ calls m rs s) ∧
    ∀ t x, m.Ends t x → run exec s₀ (m.acquired.map Prod.snd) = ended x := by
  obtain ⟨rs, s, hserial⟩ := reaches_serial Locked.tfsCall_guarded h
  refine ⟨fun t ht => ?_, fun c es r hpath => ?_, ?_, fun t x hends => ?_⟩
  · exact hserial.owner_of_step Locked.tfsCall_guarded ht
  · exact (Locked.tfsCall_guarded c).path hpath
  · exact ⟨rs, s, oneAtATime_of_serial hserial⟩
  · rw [← serial_eq_exec]
    exact hserial.ends Locked.tfsCall_guarded hends

end

/-- Both threads open `/a`, one to write it and the other to read it. -/
def shareThreads : Bool → List Call
  | true => [.tfsOpen (some pathA) tfsOCreat, .tfsWrite 0 (fun k => UInt8.ofNat k) 5, .tfsClose 0]
  | false => [.tfsOpen (some pathA) tfsOAppend, .tfsRead 1 5]

/-- Each thread starts its calls, and returns from them, between accesses of the other. -/
def shareSchedule : List Bool :=
  [(true, 6), (false, 1), (true, 31), (false, 3), (true, 2), (false, 19), (true, 5), (false, 2),
    (true, 22), (false, 4), (true, 2), (false, 11), (true, 4), (false, 1)].flatMap
      fun e => List.replicate e.2 e.1

/-- It stops inside the close. -/
theorem shareThreads_reach : ∃ m, Reaches Locked.tfsCall (start smallDisk shareThreads) m ∧
    m.owner = some true ∧ m.returned true = [⟨0, []⟩, ⟨5, []⟩] ∧
    m.returned false = [⟨1, []⟩, ⟨5, [0, 1, 2, 3, 4]⟩] ∧
    m.acquired.map Prod.fst = [true, false, true, false, true] := by
  have hrun : ((start smallDisk shareThreads).after Locked.tfsCall shareSchedule).map (fun m =>
      (m.owner, m.returned true, m.returned false, m.acquired.map Prod.fst)) =
      some (some true, [⟨0, []⟩, ⟨5, []⟩], [⟨1, []⟩, ⟨5, [0, 1, 2, 3, 4]⟩],
        [true, false, true, false, true]) := by decide +kernel
  obtain ⟨m, hafter, hm⟩ := Option.map_eq_some_iff.mp hrun
  simp only [Prod.mk.injEq] at hm
  exact ⟨m, reaches_after .refl hafter, hm⟩

theorem serialised_run_share : ∃ m, m.owner = some true ∧
    m.returned true = [⟨0, []⟩, ⟨5, []⟩] ∧ m.returned false = [⟨1, []⟩, ⟨5, [0, 1, 2, 3, 4]⟩] ∧
    m.acquired.map Prod.fst = [true, false, true, false, true] ∧
    (∀ t, m.Accesses t ∨ m.Unlocks t → m.owner = some t) ∧
    (∀ c es r, (Locked.tfsCall c).Path es r →
      ∃ n, es = .lock :: (List.replicate n .access ++ [.unlock])) ∧
    (∃ rs s, OneAtATime smallDisk shareThreads m rs s) ∧
    ∀ t x, m.Ends t x → run exec smallDisk (m.acquired.map Prod.snd) = ended x := by
  obtain ⟨m, h, howner, hwriter, hreader, hacq⟩ := shareThreads_reach
  exact ⟨m, howner, hwriter, hreader, hacq, serialised_run h⟩

end Mbroker
