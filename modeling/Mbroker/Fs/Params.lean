import Mbroker.Fs.Init

/-!
# The arithmetic of the parameters

`state_init` multiplies the parameters without a check, and later bounds are checked with the
counts, not with what was allocated.  Here `malloc(n)` may return any block of at least `n`
bytes (`Allocations`; `tfsInitOn` is `tfs_init` on such blocks, and `tfsInit_eq` says that
`tfsInit` is the case of exactly `n` bytes).

    paramsSafe_iff : the parameters are safe, whatever is allocated, iff they meet `SafeParams`
-/

namespace Mbroker

open CLib CLib.Outcome

/-! ## `tfs_init` on any allocation -/

/-- What the six calls of `malloc` in `state_init` return. -/
structure Allocations (p : TfsParams) where
  inodeTable : Option (Allocation (sizeMul p.maxInodeCount sizeofInode) Inode)
  freeinodeTs : Option (Allocation (sizeMul p.maxInodeCount sizeofAllocationState) AllocationState)
  fsData : Option (Allocation (sizeMul p.maxBlockCount p.blockSize) UInt8)
  freeBlocks : Option (Allocation (sizeMul p.maxBlockCount sizeofAllocationState) AllocationState)
  openFileTable :
    Option (Allocation (sizeMul p.maxOpenFilesCount sizeofOpenFileEntry) OpenFileEntry)
  freeOpenFileEntries :
    Option (Allocation (sizeMul p.maxOpenFilesCount sizeofAllocationState) AllocationState)

/-- The state behind the calls of `malloc`. -/
def allocatedTables (p : TfsParams) (a : Allocations p) : Tfs where
  fsParams := p
  inodeTable := .allocated sizeofInode .zero a.inodeTable
  freeinodeTs := .allocated sizeofAllocationState .free a.freeinodeTs
  fsData := .allocated 1 0 a.fsData
  freeBlocks := .allocated sizeofAllocationState .free a.freeBlocks
  openFileTable := .allocated sizeofOpenFileEntry .zero a.openFileTable
  freeOpenFileEntries := .allocated sizeofAllocationState .free a.freeOpenFileEntries

def stateInitOn (s : Tfs) (params : TfsParams) (a : Allocations params) : Outcome (Int × Tfs) :=
  let s := { s with fsParams := params }
  if !s.inodeTable.isNull then ok (-1, s) -- already initialized
  else
    let s := allocatedTables params a
    if s.inodeTable.isNull || s.freeinodeTs.isNull || s.fsData.isNull || s.freeBlocks.isNull ||
        s.openFileTable.isNull || s.freeOpenFileEntries.isNull then
      ok (-1, s) -- allocation failed
    else do
      let freeinodeTs ← s.freeinodeTs.fill 0 s.inodeTableSize (fun _ => .free)
      let freeBlocks ← s.freeBlocks.fill 0 s.dataBlocks (fun _ => .free)
      let freeOpenFileEntries ← s.freeOpenFileEntries.fill 0 s.maxOpenFiles (fun _ => .free)
      return (0, { s with freeinodeTs, freeBlocks, freeOpenFileEntries })

def tfsInitOn (s : Tfs) (paramsPtr : Option TfsParams)
    (a : Allocations (paramsPtr.getD tfsDefaultParams)) : Outcome (Int × Tfs) := do
  let (ret, s) ← stateInitOn s (paramsPtr.getD tfsDefaultParams) a
  if ret ≠ 0 then return (-1, s)
  else
    let (root, s) ← inodeCreate s .tDirectory
    if root ≠ rootDirInum then return (-1, s) else return (0, s)

/-- Exactly as many bytes as were asked for. -/
def exactBlock {α : Type} (a b : Nat) (content : Nat → α) : Allocation (sizeMul a b) α :=
  ⟨sizeMul a b, content, Nat.le_refl _, Nat.mod_lt _ (by decide)⟩

def Mallocs.exact (m : Mallocs) (p : TfsParams) : Allocations p where
  inodeTable := m.inodeTable.map (exactBlock _ _)
  freeinodeTs := m.freeinodeTs.map (exactBlock _ _)
  fsData := m.fsData.map (exactBlock _ _)
  freeBlocks := m.freeBlocks.map (exactBlock _ _)
  openFileTable := m.openFileTable.map (exactBlock _ _)
  freeOpenFileEntries := m.freeOpenFileEntries.map (exactBlock _ _)

theorem allocated_exact {α : Type} (a b width : Nat) (d : α) (o : Option (Nat → α)) :
    Region.allocated width d (o.map (exactBlock a b)) = .malloc (sizeMul a b) width d o := by
  cases o with
  | none => rfl
  | some content => rfl

theorem tfsInit_eq (s : Tfs) (m : Mallocs) (paramsPtr : Option TfsParams) :
    tfsInit s m paramsPtr = tfsInitOn s paramsPtr (m.exact _) := by
  have hstate : ∀ p, stateInit s m p = stateInitOn s p (m.exact p) := by
    intro p
    simp only [stateInitOn, allocatedTables, Mallocs.exact, allocated_exact]
    rfl
  simp only [tfsInit, tfsInitOn, hstate]

/-! ## Safe parameters -/

/-- The loop of `inode_alloc`, the first one to divide by BLOCK_SIZE, is entered with it zero. -/
def DividesByZero (s : Tfs) : Prop := 0 < s.inodeTableSize ∧ storageDelay s = fault

/-- What the checks of the `int` arguments accept lies inside the tables. -/
structure InsideTables (s : Tfs) : Prop where
  inumber : ∀ i : Int, i < 2 ^ 31 → s.validInumber i = true →
    (s.inodeTable.lo ≤ i.toNat ∧ i.toNat < s.inodeTable.hi) ∧
    (s.freeinodeTs.lo ≤ i.toNat ∧ i.toNat < s.freeinodeTs.hi)
  block : ∀ b : Int, b < 2 ^ 31 → s.validBlockNumber b = true →
    (s.freeBlocks.lo ≤ b.toNat ∧ b.toNat < s.freeBlocks.hi) ∧
    dataBlockGet s b = ok (b.toNat * s.blockSize) ∧ s.fsData.lo ≤ b.toNat * s.blockSize ∧
    (b.toNat + 1) * s.blockSize ≤ s.fsData.hi ∧ (b.toNat + 1) * s.blockSize < 2 ^ 64
  handle : ∀ h : Int, h < 2 ^ 31 → s.validFileHandle h = true →
    (s.openFileTable.lo ≤ h.toNat ∧ h.toNat < s.openFileTable.hi) ∧
    (s.freeOpenFileEntries.lo ≤ h.toNat ∧ h.toNat < s.freeOpenFileEntries.hi)
  root : s.validBlockNumber (s.inodeTable.cell 0).iDataBlock = true ∧
    sizeofDirEntry * s.maxDirEntries ≤ s.blockSize

/-- Whatever is allocated, `tfs_init` does not divide by zero, and when it returns 0 all elements
are inside. -/
def ParamsSafe (paramsPtr : Option TfsParams) : Prop :=
  ∀ (s : Tfs) (a : Allocations (paramsPtr.getD tfsDefaultParams)),
    (∀ s₁, stateInitOn s (paramsPtr.getD tfsDefaultParams) a = ok (0, s₁) → ¬ DividesByZero s₁) ∧
    ∀ s', tfsInitOn s paramsPtr a = ok (0, s') → InsideTables s'

/-- The products that `malloc` gets are enough for all elements that an `int` can denote. -/
structure ProductsFit (p : TfsParams) : Prop where
  inodes : min p.maxInodeCount (2 ^ 31) * sizeofInode ≤ sizeMul p.maxInodeCount sizeofInode
  blocks : min p.maxBlockCount (2 ^ 31) * p.blockSize ≤ sizeMul p.maxBlockCount p.blockSize
  handles : min p.maxOpenFilesCount (2 ^ 31) * sizeofOpenFileEntry ≤
    sizeMul p.maxOpenFilesCount sizeofOpenFileEntry

/-- No initialisation gets far enough, or nothing goes wrong in it. -/
def SafeParams (p : TfsParams) : Prop :=
  p.maxInodeCount = 0 ∨ 2 ^ 62 ≤ p.maxInodeCount ∨ 2 ^ 62 ≤ p.maxBlockCount ∨
    2 ^ 62 ≤ p.maxOpenFilesCount ∨ 0 < p.blockSize ∧ (p.maxBlockCount = 0 ∨ ProductsFit p)

/-- The fields are of type `size_t`. -/
structure SizeFields (p : TfsParams) : Prop where
  inodes : p.maxInodeCount < 2 ^ 64
  blocks : p.maxBlockCount < 2 ^ 64
  handles : p.maxOpenFilesCount < 2 ^ 64
  blockSize : p.blockSize < 2 ^ 64

/-- The loop makes its first iteration, and that begins with the division. -/
theorem inodeAlloc_divides {s : Tfs} (h : DividesByZero s) : inodeAlloc s = fault := by
  obtain ⟨k, hk⟩ := Nat.exists_eq_succ_of_ne_zero (Nat.ne_of_gt h.1)
  rw [inodeAlloc, hk]
  simp only [forFirst, forFrom, h.2, fault_bind]

/-! ## What a successful `state_init` leaves -/

/-- `n` entries, and perhaps more, all of them FREE. -/
structure Labelled (r : Region AllocationState) (n : Nat) : Prop where
  lo : r.lo = 0
  room : n ≤ r.hi
  addressable : r.hi < 2 ^ 62
  free : ∀ i, i < n → r.cell i = .free

/-- The tables behind `state_init`, as large as the products or larger. -/
structure TablesAllocated (s : Tfs) : Prop where
  inodeTable : s.inodeTable.lo = 0 ∧
    sizeMul s.inodeTableSize sizeofInode / sizeofInode ≤ s.inodeTable.hi
  freeinodeTs : Labelled s.freeinodeTs s.inodeTableSize
  fsData : s.fsData.isNull = false ∧ s.fsData.lo = 0 ∧
    sizeMul s.dataBlocks s.blockSize ≤ s.fsData.hi ∧ s.fsData.hi < 2 ^ 64
  freeBlocks : Labelled s.freeBlocks s.dataBlocks
  openFileTable : s.openFileTable.lo = 0 ∧
    sizeMul s.maxOpenFiles sizeofOpenFileEntry / sizeofOpenFileEntry ≤ s.openFileTable.hi
  freeOpenFileEntries : Labelled s.freeOpenFileEntries s.maxOpenFiles

theorem allocated_room {α : Type} {bytes width : Nat} {d : α} {o : Option (Allocation bytes α)}
    (hn : (Region.allocated width d o).isNull = false) :
    (Region.allocated width d o).lo = 0 ∧ bytes / width ≤ (Region.allocated width d o).hi ∧
      (Region.allocated width d o).hi ≤ (2 ^ 64 - 1) / width := by
  cases o with
  | none => cases hn
  | some block =>
    have haddressable := block.addressable
    exact ⟨rfl, Nat.div_le_div_right block.enough, Nat.div_le_div_right (by omega)⟩

/-- The loop of `state_init` over a table stays in it. -/
theorem labelled_fill {bytes n : Nat} {o : Option (Allocation bytes AllocationState)}
    {r : Region AllocationState}
    (hn : (Region.allocated sizeofAllocationState .free o).isNull = false)
    (h : (Region.allocated sizeofAllocationState .free o).fill 0 n (fun _ => .free) = ok r) :
    Labelled r n := by
  obtain ⟨hlo, -, hhi⟩ := allocated_room hn
  have hwidth : (2 ^ 64 - 1) / sizeofAllocationState < 2 ^ 62 := by decide
  unfold Region.fill at h
  split at h
  · next hin =>
    cases h
    refine ⟨hlo, ?_, Nat.lt_of_le_of_lt hhi hwidth, fun i hi => put_zero_cell _ _ hi⟩
    rw [Region.put_hi]
    omega
  · cases h

theorem stateInitOn_allocated {s s₁ : Tfs} {p : TfsParams} {a : Allocations p}
    (h : stateInitOn s p a = ok (0, s₁)) : TablesAllocated s₁ ∧ s₁.fsParams = p := by
  unfold stateInitOn at h
  simp only at h
  split at h
  · cases h
  · split at h
    · cases h
    · next hnull =>
      simp only [Bool.or_eq_true, not_or, Bool.not_eq_true] at hnull
      obtain ⟨⟨⟨⟨⟨n1, n2⟩, n3⟩, n4⟩, n5⟩, n6⟩ := hnull
      simp only [bind_eq_ok, pure_eq, ok.injEq, Prod.mk.injEq, true_and] at h
      obtain ⟨freeinodeTs, h2, freeBlocks, h4, freeOpenFileEntries, h6, rfl⟩ := h
      obtain ⟨hlo, hroom, -⟩ := allocated_room n1
      obtain ⟨hlo', hroom', -⟩ := allocated_room n5
      obtain ⟨hlo'', hroom'', hhi''⟩ := allocated_room n3
      rw [Nat.div_one] at hroom'' hhi''
      exact ⟨⟨⟨hlo, hroom⟩, labelled_fill n2 h2, ⟨n3, hlo'', hroom'', by
        show (Region.allocated 1 0 a.fsData).hi < 2 ^ 64
        omega⟩, labelled_fill n4 h4, ⟨hlo', hroom'⟩, labelled_fill n6 h6⟩, rfl⟩

/-! ## Safe parameters keep everything inside -/

/-- When the first `min n (2 ^ 31)` elements take no more bytes than were asked for, each of them
is in a table that large. -/
theorem element_inside {n width bytes hi i : Nat} (hw : 0 < width)
    (hfit : min n (2 ^ 31) * width ≤ bytes) (hroom : bytes / width ≤ hi) (hn : i < n)
    (hint : i < 2 ^ 31) : i < hi := by
  have hmin : min n (2 ^ 31) ≤ bytes / width := (Nat.le_div_iff_mul_le hw).mpr hfit
  omega

theorem block_inside {n width bytes b : Nat} (hfit : min n (2 ^ 31) * width ≤ bytes)
    (hn : b < n) (hint : b < 2 ^ 31) : (b + 1) * width ≤ bytes := by
  have hmin : b + 1 ≤ min n (2 ^ 31) := by omega
  exact (Nat.mul_le_mul_right width hmin).trans hfit

section
variable {s : Tfs}

theorem rootFits_allocated (hs : TablesAllocated s) (hfit : ProductsFit s.fsParams)
    (hpos : 0 < s.blockSize) (hinodes : 0 < s.inodeTableSize) (hblocks : 0 < s.dataBlocks) :
    RootFits s where
  blockPos := hpos
  inode := ⟨hinodes, hs.freeinodeTs.free 0 hinodes⟩
  block := ⟨hblocks, hs.freeBlocks.free 0 hblocks⟩
  inodeTable := by
    obtain ⟨hlo, hroom⟩ := hs.inodeTable
    exact ⟨Nat.le_of_eq hlo, element_inside (by decide) hfit.inodes hroom hinodes (by decide)⟩
  freeinodeTs := ⟨Nat.le_of_eq hs.freeinodeTs.lo, Nat.lt_of_lt_of_le hinodes hs.freeinodeTs.room⟩
  freeBlocks := ⟨Nat.le_of_eq hs.freeBlocks.lo, Nat.lt_of_lt_of_le hblocks hs.freeBlocks.room⟩
  fsData := by
    obtain ⟨hnull, hlo, hroom, -⟩ := hs.fsData
    have hfirst := block_inside hfit.blocks hblocks (by decide)
    rw [Nat.zero_add, Nat.one_mul] at hfirst
    exact ⟨hnull, hlo, hfirst.trans hroom⟩

theorem insideTables_root (hs : TablesAllocated s) (hfit : ProductsFit s.fsParams)
    (hblocks : 0 < s.dataBlocks) {data : Region UInt8} (hlo : data.lo = s.fsData.lo)
    (hhi : data.hi = s.fsData.hi) : InsideTables (rootCreated s data) := by
  constructor
  case inumber =>
    intro i hint hvalid
    obtain ⟨h0, hi⟩ := of_decide_eq_true hvalid
    have hi' : i.toNat < s.inodeTableSize := hi
    obtain ⟨hlo, hroom⟩ := hs.inodeTable
    refine ⟨⟨?_, element_inside (by decide) hfit.inodes hroom hi' (by omega)⟩, ?_,
      Nat.lt_of_lt_of_le hi' hs.freeinodeTs.room⟩
    · show s.inodeTable.lo ≤ i.toNat
      omega
    · show s.freeinodeTs.lo ≤ i.toNat
      rw [hs.freeinodeTs.lo]
      exact Nat.zero_le _
  case block =>
    intro b hint hvalid
    obtain ⟨h0, hb⟩ := of_decide_eq_true hvalid
    have hb' : b.toNat < s.dataBlocks := hb
    obtain ⟨-, hdlo, hroom, haddressable⟩ := hs.fsData
    have hend : (b.toNat + 1) * s.blockSize ≤ s.fsData.hi :=
      (block_inside hfit.blocks hb' (by omega)).trans hroom
    have hstart : b.toNat * s.blockSize ≤ (b.toNat + 1) * s.blockSize :=
      Nat.mul_le_mul_right _ (Nat.le_succ _)
    refine ⟨⟨?_, Nat.lt_of_lt_of_le hb' hs.freeBlocks.room⟩, ?_, ?_, ?_, ?_⟩
    · show s.freeBlocks.lo ≤ b.toNat
      rw [hs.freeBlocks.lo]
      exact Nat.zero_le _
    · have hmul : sizeMul b.toNat s.blockSize = b.toNat * s.blockSize := sizeMul_of_lt (by omega)
      rw [dataBlockGet, hvalid, alwaysAssert_true, ok_bind, pure_eq]
      exact congrArg ok hmul
    · show data.lo ≤ b.toNat * s.blockSize
      rw [hlo, hdlo]
      exact Nat.zero_le _
    · show (b.toNat + 1) * s.blockSize ≤ data.hi
      rw [hhi]
      exact hend
    · show (b.toNat + 1) * s.blockSize < 2 ^ 64
      omega
  case handle =>
    intro h hint hvalid
    obtain ⟨h0, hh⟩ := of_decide_eq_true hvalid
    have hh' : h.toNat < s.maxOpenFiles := hh
    obtain ⟨hlo, hroom⟩ := hs.openFileTable
    refine ⟨⟨?_, element_inside (by decide) hfit.handles hroom hh' (by omega)⟩, ?_,
      Nat.lt_of_lt_of_le hh' hs.freeOpenFileEntries.room⟩
    · show s.openFileTable.lo ≤ h.toNat
      omega
    · show s.freeOpenFileEntries.lo ≤ h.toNat
      rw [hs.freeOpenFileEntries.lo]
      exact Nat.zero_le _
  case root =>
    refine ⟨?_, rootEntries_le s⟩
    simpa [rootCreated, Tfs.validBlockNumber, Tfs.dataBlocks] using hblocks

end

theorem paramsSafe_of {paramsPtr : Option TfsParams}
    (hp : SafeParams (paramsPtr.getD tfsDefaultParams)) : ParamsSafe paramsPtr := by
  intro s a
  have hsafe : ∀ s₁, stateInitOn s (paramsPtr.getD tfsDefaultParams) a = ok (0, s₁) →
      TablesAllocated s₁ ∧ (s₁.inodeTableSize = 0 ∨
        0 < s₁.blockSize ∧ (s₁.dataBlocks = 0 ∨ ProductsFit s₁.fsParams)) := by
    intro s₁ h₁
    obtain ⟨hs, hparams⟩ := stateInitOn_allocated h₁
    refine ⟨hs, ?_⟩
    -- the loops of `state_init` are over tables that have addresses
    have h2 := hs.freeinodeTs.room
    have h2' := hs.freeinodeTs.addressable
    have h4 := hs.freeBlocks.room
    have h4' := hs.freeBlocks.addressable
    have h6 := hs.freeOpenFileEntries.room
    have h6' := hs.freeOpenFileEntries.addressable
    unfold Tfs.inodeTableSize at h2 ⊢
    unfold Tfs.dataBlocks at h4 ⊢
    unfold Tfs.maxOpenFiles at h6
    unfold Tfs.blockSize
    rw [hparams] at h2 h4 h6 ⊢
    rcases hp with hp | hp | hp | hp | hp
    · exact Or.inl hp
    · omega
    · omega
    · omega
    · exact Or.inr hp
  constructor
  · rintro s₁ h₁ ⟨hinodes, hdelay⟩
    rcases (hsafe s₁ h₁).2 with hz | ⟨hpos, -⟩
    · omega
    · rw [storageDelay, if_neg (Nat.ne_of_gt hpos)] at hdelay
      cases hdelay
  · intro s' h
    simp only [tfsInitOn, bind_eq_ok] at h
    obtain ⟨⟨ret, s₁⟩, h₁, h⟩ := h
    simp only at h
    split at h
    · cases h
    · next hret =>
      obtain rfl : ret = 0 := Classical.not_not.mp hret
      simp only [bind_eq_ok] at h
      obtain ⟨⟨root, s₂⟩, hroot, h⟩ := h
      simp only at h
      split at h
      · cases h
      · next hne =>
        obtain rfl : root = rootDirInum := Classical.not_not.mp hne
        cases h
        obtain ⟨hinodes, hblocks⟩ := rootCreate_room hroot
        obtain ⟨hs, hz | ⟨hpos, hz | hfit⟩⟩ := hsafe s₁ h₁
        · omega
        · omega
        · obtain ⟨data, hcreate, ⟨-, hlo, hhi⟩, -⟩ :=
            rootCreate_ok (rootFits_allocated hs hfit hpos hinodes hblocks)
          rw [hcreate, ok.injEq, Prod.mk.injEq] at hroot
          rw [← hroot.2]
          exact insideTables_root hs hfit hblocks hlo hhi

/-! ## Other parameters do not -/

/-- No more than was asked for, and what the root directory needs. -/
def roomyAllocations (p : TfsParams) (hp : SizeFields p) : Allocations p where
  inodeTable := some ⟨max (sizeMul p.maxInodeCount sizeofInode) sizeofInode, fun _ => .zero,
    Nat.le_max_left _ _, max_lt (Nat.mod_lt _ (by decide)) (by decide)⟩
  freeinodeTs := some (exactBlock _ _ fun _ => .free)
  fsData := some ⟨max (sizeMul p.maxBlockCount p.blockSize) p.blockSize, fun _ => 0,
    Nat.le_max_left _ _, max_lt (Nat.mod_lt _ (by decide)) hp.blockSize⟩
  freeBlocks := some (exactBlock _ _ fun _ => .free)
  openFileTable := some (exactBlock _ _ fun _ => .zero)
  freeOpenFileEntries := some (exactBlock _ _ fun _ => .free)

section
variable {p : TfsParams} (hp : SizeFields p)

/-- The state behind `state_init` on them. -/
def roomyTables : Tfs :=
  let s := allocatedTables p (roomyAllocations p hp)
  { s with
    freeinodeTs := s.freeinodeTs.put 0 p.maxInodeCount (fun _ => .free)
    freeBlocks := s.freeBlocks.put 0 p.maxBlockCount (fun _ => .free)
    freeOpenFileEntries := s.freeOpenFileEntries.put 0 p.maxOpenFilesCount (fun _ => .free) }

theorem exact_fill {n : Nat} (hn : n < 2 ^ 62) :
    0 + n ≤ sizeMul n sizeofAllocationState / sizeofAllocationState := by
  unfold sizeMul sizeofAllocationState
  omega

theorem stateInitOn_roomy (hinodes : p.maxInodeCount < 2 ^ 62) (hblocks : p.maxBlockCount < 2 ^ 62)
    (hhandles : p.maxOpenFilesCount < 2 ^ 62) :
    stateInitOn .zero p (roomyAllocations p hp) = ok (0, roomyTables hp) := by
  have h2 : (allocatedTables p (roomyAllocations p hp)).freeinodeTs.fill 0 p.maxInodeCount
      (fun _ => .free) = ok (roomyTables hp).freeinodeTs :=
    Region.fill_ok _ ⟨Nat.le_refl 0, exact_fill hinodes⟩
  have h4 : (allocatedTables p (roomyAllocations p hp)).freeBlocks.fill 0 p.maxBlockCount
      (fun _ => .free) = ok (roomyTables hp).freeBlocks :=
    Region.fill_ok _ ⟨Nat.le_refl 0, exact_fill hblocks⟩
  have h6 : (allocatedTables p (roomyAllocations p hp)).freeOpenFileEntries.fill 0
      p.maxOpenFilesCount (fun _ => .free) = ok (roomyTables hp).freeOpenFileEntries :=
    Region.fill_ok _ ⟨Nat.le_refl 0, exact_fill hhandles⟩
  show ((allocatedTables p (roomyAllocations p hp)).freeinodeTs.fill 0 p.maxInodeCount _ >>= _) = _
  rw [h2, ok_bind]
  show ((allocatedTables p (roomyAllocations p hp)).freeBlocks.fill 0 p.maxBlockCount _ >>= _) = _
  rw [h4, ok_bind]
  show ((allocatedTables p (roomyAllocations p hp)).freeOpenFileEntries.fill 0
    p.maxOpenFilesCount _ >>= _) = _
  rw [h6, ok_bind]
  rfl

theorem rootFits_roomy (hpos : 0 < p.blockSize) (hinodes : 0 < p.maxInodeCount)
    (hinodes' : p.maxInodeCount < 2 ^ 62) (hblocks : 0 < p.maxBlockCount)
    (hblocks' : p.maxBlockCount < 2 ^ 62) : RootFits (roomyTables hp) where
  blockPos := hpos
  inode := ⟨hinodes, put_zero_cell _ _ hinodes⟩
  block := ⟨hblocks, put_zero_cell _ _ hblocks⟩
  inodeTable := ⟨Nat.le_refl 0, Nat.div_pos (Nat.le_max_right _ _) (by decide)⟩
  freeinodeTs := ⟨Nat.le_refl 0, Nat.lt_of_lt_of_le (by omega) (exact_fill hinodes')⟩
  freeBlocks := ⟨Nat.le_refl 0, Nat.lt_of_lt_of_le (by omega) (exact_fill hblocks')⟩
  fsData := by
    refine ⟨rfl, rfl, ?_⟩
    show p.blockSize ≤ max (sizeMul p.maxBlockCount p.blockSize) p.blockSize / 1
    rw [Nat.div_one]
    exact Nat.le_max_right _ _

/-- One element always fits, so what is there besides it was asked for. -/
theorem fit_of_max {n width : Nat} (hw : width < 2 ^ 64)
    (h : min n (2 ^ 31) * width ≤ max (sizeMul n width) width) :
    min n (2 ^ 31) * width ≤ sizeMul n width := by
  by_cases hone : n = 1
  · rw [hone, sizeMul_of_lt (by omega)]
    exact Nat.mul_le_mul_right _ (Nat.min_le_left _ _)
  · rcases Nat.le_total width (sizeMul n width) with hle | hle
    · rwa [Nat.max_eq_left hle] at h
    · rw [Nat.max_eq_right hle] at h
      have hmin : min n (2 ^ 31) = 0 ∨ 2 ≤ min n (2 ^ 31) := by omega
      rcases hmin with hz | htwo
      · rw [hz, Nat.zero_mul]
        exact Nat.zero_le _
      · have hdouble := (Nat.mul_le_mul_right width htwo).trans h
        obtain rfl : width = 0 := by omega
        rw [Nat.mul_zero]
        exact Nat.zero_le _

/-- The last element that an `int` can denote is inside. -/
theorem last_inside {n width bytes : Nat} (hw : 0 < width)
    (h : ∀ i : Int, i < 2 ^ 31 → 0 ≤ i → i.toNat < n → i.toNat < bytes / width) :
    min n (2 ^ 31) * width ≤ bytes := by
  rcases Nat.eq_zero_or_pos n with rfl | hn
  · rw [Nat.zero_min, Nat.zero_mul]
    exact Nat.zero_le _
  · have hlast := h ((min n (2 ^ 31) - 1 : Nat) : Int) (by omega) (by omega) (by omega)
    rw [Int.toNat_natCast] at hlast
    exact (Nat.le_div_iff_mul_le hw).mp (by omega)

theorem productsFit_of_inside {data : Region UInt8}
    (hdata : data.hi = (roomyTables hp).fsData.hi)
    (h : InsideTables (rootCreated (roomyTables hp) data)) : ProductsFit p := by
  constructor
  case inodes =>
    refine fit_of_max (by decide) (last_inside (by decide) (fun i hint h0 hi => ?_))
    exact (h.inumber i hint (decide_eq_true ⟨h0, hi⟩)).1.2
  case blocks =>
    refine fit_of_max hp.blockSize ?_
    rcases Nat.eq_zero_or_pos p.maxBlockCount with hz | hb
    · rw [hz, Nat.zero_min, Nat.zero_mul]
      exact Nat.zero_le _
    · have hvalid : (rootCreated (roomyTables hp) data).validBlockNumber
          ((min p.maxBlockCount (2 ^ 31) - 1 : Nat) : Int) = true := by
        refine decide_eq_true ⟨by omega, ?_⟩
        show min p.maxBlockCount (2 ^ 31) - 1 < p.maxBlockCount
        omega
      obtain ⟨-, -, -, hend, -⟩ := h.block _ (by omega) hvalid
      have hlast : min p.maxBlockCount (2 ^ 31) - 1 + 1 = min p.maxBlockCount (2 ^ 31) := by omega
      rw [Int.toNat_natCast, hlast] at hend
      have hhi : data.hi = max (sizeMul p.maxBlockCount p.blockSize) p.blockSize :=
        hdata.trans (Nat.div_one _)
      rw [← hhi]
      exact hend
  case handles =>
    refine last_inside (by decide) (fun i hint h0 hi => ?_)
    exact (h.handle i hint (decide_eq_true ⟨h0, hi⟩)).1.2

end

theorem safeParams_of {paramsPtr : Option TfsParams}
    (hp : SizeFields (paramsPtr.getD tfsDefaultParams)) (h : ParamsSafe paramsPtr) :
    SafeParams (paramsPtr.getD tfsDefaultParams) := by
  unfold ParamsSafe at h
  unfold tfsInitOn at h
  generalize paramsPtr.getD tfsDefaultParams = p at *
  obtain ⟨hdiv, hinside⟩ := h .zero (roomyAllocations p hp)
  by_contra hnot
  simp only [SafeParams, not_or, not_and_or, Nat.not_le] at hnot
  obtain ⟨hinodes, hinodes', hblocks', hhandles', hrest⟩ := hnot
  have hstate := stateInitOn_roomy hp hinodes' hblocks' hhandles'
  have hinodes := Nat.pos_of_ne_zero hinodes
  rcases Nat.eq_zero_or_pos p.blockSize with hz | hpos
  · exact hdiv _ hstate ⟨hinodes, if_pos hz⟩
  · rcases hrest with hrest | ⟨hblocks, hfit⟩
    · exact hrest hpos
    · have hblocks := Nat.pos_of_ne_zero hblocks
      obtain ⟨data, hcreate, ⟨-, -, hhi⟩, -⟩ :=
        rootCreate_ok (rootFits_roomy hp hpos hinodes hinodes' hblocks hblocks')
      refine hfit (productsFit_of_inside hp hhi (hinside _ ?_))
      simp only [hstate, hcreate, ok_bind, ne_eq, not_true_eq_false, if_false, pure_eq]

/-- Exactly the parameters with `SafeParams` are safe. -/
theorem paramsSafe_iff (paramsPtr : Option TfsParams)
    (hp : SizeFields (paramsPtr.getD tfsDefaultParams)) :
    ParamsSafe paramsPtr ↔ SafeParams (paramsPtr.getD tfsDefaultParams) :=
  ⟨safeParams_of hp, paramsSafe_of⟩

theorem paramsSafe_small : ParamsSafe (some smallParams) := by
  refine (paramsSafe_iff (some smallParams) ⟨by decide, by decide, by decide, by decide⟩).mpr ?_
  have hfit : ProductsFit smallParams := ⟨by decide, by decide, by decide⟩
  exact Or.inr (Or.inr (Or.inr (Or.inr ⟨by decide, Or.inr hfit⟩)))

/-- Blocks of no bytes: `tfs_init` divides by zero. -/
theorem not_paramsSafe :
    ¬ ∀ paramsPtr : Option TfsParams, SizeFields (paramsPtr.getD tfsDefaultParams) →
      ParamsSafe paramsPtr := by
  intro hall
  have hsize : SizeFields ⟨1, 1, 1, 0⟩ := ⟨by decide, by decide, by decide, by decide⟩
  have hsafe : SafeParams ⟨1, 1, 1, 0⟩ :=
    @safeParams_of (some ⟨1, 1, 1, 0⟩) hsize (hall _ hsize)
  simp [SafeParams] at hsafe

end Mbroker
