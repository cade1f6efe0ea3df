import Mbroker.Broker.Server
import Mbroker.Fs.Lookup
import Mbroker.Fs.Preserve

/-!
# Boxes

A box is a node of the list and a file of the same name.  `Boxes s boxes`: the list of
server `s` holds the nodes `boxes`.  A node's name is the file's path, which TécnicoFS
takes only with a leading `/`.
-/

namespace Mbroker

open CLib Outcome

/-- The file system as the broker can have it: `tfs_init(NULL)`, and any calls. -/
def BrokerFs (tfs : Tfs) : Prop :=
  ∃ m tfs₀ cs rs, tfsInit .zero m none = ok (0, tfs₀) ∧ run exec tfs₀ cs = ok (rs, tfs)

theorem defaultParams_good : GoodParams tfsDefaultParams := by
  constructor <;> decide

theorem BrokerFs.inv {tfs : Tfs} (h : BrokerFs tfs) : Inv tfs := by
  obtain ⟨m, tfs₀, cs, rs, hinit, hrun⟩ := h
  exact run_exec_inv (tfsInit_initial (p := none) defaultParams_good hinit).1.inv hrun

/-! ## Files of boxes -/

def HasFile (tfs : Tfs) (name : CStr) : Prop :=
  validPathname (some name) = true ∧ dirMap tfs name.tail ≠ none

def boxContent (tfs : Tfs) (name : CStr) : List UInt8 :=
  match dirMap tfs name.tail with
  | some inumber => fileBytes tfs inumber.toNat
  | none => []

def SameFiles (tfs tfs' : Tfs) : Prop :=
  ∀ name, (HasFile tfs' name ↔ HasFile tfs name) ∧ boxContent tfs' name = boxContent tfs name

/-- No free inode, directory entry or handle. -/
def NoRoom (tfs : Tfs) : Prop :=
  (∀ i, i < tfs.inodeTableSize → tfs.freeinodeTs.cell i ≠ .free) ∨
  (∀ j, j < tfs.maxDirEntries → Live tfs.fsData 0 j) ∨
  ∀ h, h < tfs.maxOpenFiles → tfs.freeOpenFileEntries.cell h ≠ .free

section
variable {tfs : Tfs} {name : CStr}

theorem hasFile_named (hI : Inv tfs) (h : HasFile tfs name) :
    ∃ j i, Named tfs name.tail j i ∧ boxContent tfs name = fileBytes tfs i := by
  obtain ⟨d, hd⟩ := Option.ne_none_iff_exists'.mp h.2
  obtain ⟨j, i, hn, rfl⟩ := (dirMap_eq_some hI).mp hd
  refine ⟨j, i, hn, ?_⟩
  unfold boxContent
  rw [hd]
  rfl

theorem boxContent_length (hI : Inv tfs) : (boxContent tfs name).length ≤ tfs.blockSize := by
  unfold boxContent
  cases hd : dirMap tfs name.tail with
  | none => exact Nat.zero_le _
  | some d =>
    obtain ⟨j, i, hn, rfl⟩ := (dirMap_eq_some hI).mp hd
    obtain ⟨hf, ht⟩ := hI.named_file hn
    simpa using hI.sizeLe hf ht

/-- What is in the boxes does not depend on the open file table. -/
theorem boxContent_handles (t : Region OpenFileEntry) :
    boxContent { tfs with openFileTable := t } name = boxContent tfs name := rfl

theorem initial_noFile (hini : Initial tfs) : ¬ HasFile tfs name := by
  intro h
  obtain ⟨j, i, hn, -⟩ := hasFile_named hini.inv h
  exact hini.noFile j hn.1 hn.live

end

/-! ## Opening a box -/

section
variable {tfs tfs' : Tfs} {path : CStr} {r : Int}

/-- `tfs_open` of a box for appending: refused, or a handle at the end of its file. -/
theorem tfsOpen_append (hI : Inv tfs) (h : tfsOpen tfs (some path) tfsOAppend = ok (r, tfs')) :
    r = -1 ∧ tfs' = tfs ∨ ∃ j i k, validPathname (some path) = true ∧ Named tfs path.tail j i ∧
      FirstAt (fun k => tfs.freeOpenFileEntries.cell k = .free) tfs.maxOpenFiles k ∧ r = k ∧
      tfs' = handleAdded tfs k i (tfs.inodeTable.cell i).iSize := by
  obtain ⟨r₁, tfs₁, hopen, heffect⟩ := tfsOpen_effect hI (some path) tfsOAppend
  rw [hopen] at h
  simp only [ok.injEq, Prod.mk.injEq] at h
  obtain ⟨rfl, rfl⟩ := h
  have hcreat : hasFlag tfsOAppend tfsOCreat = false := by decide
  cases heffect with
  | openBad hv => exact Or.inl ⟨rfl, rfl⟩
  | openAbsent hv ha hm => exact Or.inl ⟨rfl, rfl⟩
  | openNoInode hv ha hm hi => exact Or.inl ⟨rfl, rfl⟩
  | openNoEntry i hv ha hm hi hn =>
    rw [hcreat] at hm
    cases hm
  | openCreate i j hv ha hm hi hn hj hr =>
    rw [hcreat] at hm
    cases hm
  | openFound j i hv hn h₁ hr =>
    rw [if_neg (by decide)] at h₁
    subst h₁
    rw [if_pos (by decide)] at hr
    cases hr with
    | full hh => exact Or.inl ⟨rfl, rfl⟩
    | slot k hk => exact Or.inr ⟨j, i, k, hv, hn, hk, rfl, rfl⟩

/-- An existing box can be opened while a handle is free. -/
theorem tfsOpen_box (hI : Inv tfs) (hfile : HasFile tfs path)
    (hfree : ∃ k, k < tfs.maxOpenFiles ∧ tfs.freeOpenFileEntries.cell k = .free) :
    ∃ j i k, Named tfs path.tail j i ∧
      FirstAt (fun k => tfs.freeOpenFileEntries.cell k = .free) tfs.maxOpenFiles k ∧
      tfsOpen tfs (some path) tfsOAppend =
        ok ((k : Int), handleAdded tfs k i (tfs.inodeTable.cell i).iSize) := by
  obtain ⟨j, i, hn, -⟩ := hasFile_named hI hfile
  rcases firstAt_or_none (fun k => tfs.freeOpenFileEntries.cell k = .free) tfs.maxOpenFiles with
    ⟨k, hk⟩ | hnone
  · have heffect : Effect tfs (.tfsOpen (some path) tfsOAppend) ⟨k, []⟩ _ :=
      .openFound j i hfile.1 hn (if_neg (by decide)).symm (.slot k hk)
    have hopen := (tfsOpen_ok hI heffect).1
    rw [if_pos (by decide)] at hopen
    exact ⟨j, i, k, hn, hk, hopen⟩
  · obtain ⟨k, hlt, hcell⟩ := hfree
    exact absurd hcell (hnone k hlt)

/-- The open box: the handle is at the end of the file. -/
theorem opened_atEnd (hI : Inv tfs) {j i k : Nat} (hn : Named tfs path.tail j i)
    (hk : FirstAt (fun k => tfs.freeOpenFileEntries.cell k = .free) tfs.maxOpenFiles k) :
    Inv (handleAdded tfs k i (tfs.inodeTable.cell i).iSize) ∧
      OpenOn (handleAdded tfs k i (tfs.inodeTable.cell i).iSize) (k : Int) k i ∧
      ((handleAdded tfs k i (tfs.inodeTable.cell i).iSize).openFileTable.cell k).ofOffset =
        (tfs.inodeTable.cell i).iSize ∧
      (tfs.inodeTable.cell i).iSize ≤ tfs.blockSize := by
  obtain ⟨hf, ht⟩ := hI.named_file hn
  have hsize := hI.sizeLe hf ht
  have hlt := hI.blockSize_lt
  refine ⟨?_, ⟨⟨rfl, hk.1, ?_⟩, ?_⟩, ?_, hsize⟩
  · exact inv_handleAdded hI k hf (hI.file i hf ht) (by omega)
  · simp [handleAdded]
  · simp [handleAdded]
  · simp [handleAdded]

/-- A write of no bytes there changes nothing. -/
theorem opened_tfsWrite_zero (hI : Inv tfs) {j i k : Nat} (hn : Named tfs path.tail j i)
    (hk : FirstAt (fun k => tfs.freeOpenFileEntries.cell k = .free) tfs.maxOpenFiles k)
    (buffer : Nat → UInt8) :
    tfsWrite (handleAdded tfs k i (tfs.inodeTable.cell i).iSize) (k : Int) buffer 0 =
      ok (0, handleAdded tfs k i (tfs.inodeTable.cell i).iSize) := by
  obtain ⟨hI', hh, hend, hsize⟩ := opened_atEnd hI hn hk
  have hlt := hI.blockSize_lt
  refine tfsWrite_zero hI' hh buffer 0 ?_
  rw [hend]
  unfold clampWrite
  rw [sizeAdd_of_lt (by omega), if_neg]
  show ¬ 0 + (tfs.inodeTable.cell i).iSize > tfs.blockSize
  omega

end

/-! ## The list -/

def Boxes (s : Server) (boxes : List (Nat × BoxNode)) : Prop :=
  match s.head with
  | none => boxes = []
  | some first => BoxList s.nodes first boxes

def names (boxes : List (Nat × BoxNode)) : List CStr := boxes.map fun e => e.2.boxName.str

/-- The list has the boxes whose files exist, each once. -/
structure InStep (s : Server) (boxes : List (Nat × BoxNode)) : Prop where
  list : Boxes s boxes
  once : (names boxes).Nodup
  files : ∀ name, name ∈ names boxes ↔ HasFile s.tfs name

/-! ## Disks -/

/-- The file system behind `tfs_init(NULL)` on memory of zeros. -/
def brokerDisk : Tfs := ((tfsInit .zero zeroMallocs none).getD (0, .zero)).2

theorem brokerDisk_init : tfsInit .zero zeroMallocs none = ok (0, brokerDisk) := by
  rw [eq_ok_getD (0, .zero) (by decide +kernel : (tfsInit .zero zeroMallocs none).isOk = true)]
  rfl

def boxA : BoxName := ⟨pathA, by decide⟩
def boxB : BoxName := ⟨pathB, by decide⟩

/-- The calls that create the files of two boxes. -/
def twoBoxCalls : List Call :=
  [.tfsOpen (some pathA) tfsOCreat, .tfsClose 0, .tfsOpen (some pathB) tfsOCreat, .tfsClose 0]

def twoBoxDisk : Tfs := stateAfter brokerDisk twoBoxCalls

theorem twoBoxDisk_fs : BrokerFs twoBoxDisk :=
  ⟨zeroMallocs, brokerDisk, twoBoxCalls, answers brokerDisk twoBoxCalls, brokerDisk_init,
    run_eq_answers (by decide +kernel)⟩

theorem twoBoxDisk_a : HasFile twoBoxDisk pathA :=
  ⟨by decide, by decide +kernel⟩

theorem twoBoxDisk_b : HasFile twoBoxDisk pathB :=
  ⟨by decide, by decide +kernel⟩

end Mbroker
