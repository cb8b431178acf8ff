import MofuOS.Memory.Bump
import MofuOS.Process.FreshFrames
import MofuOS.Process.Reservations

/-! The circular buffers of data_structures/circular_buffer.rs: frames that are mapped twice, one view behind
the other. -/
namespace MofuOS.Process
open Lib Memory

/-- An address space, and what allocate_virtual_range keeps beside it. -/
structure MemoryLayout (F : Type) where
  space : AddressSpace F
  nextAllocVaddr : Nat

namespace CircularBuffer
variable {F : Type}

def circularBufferMaxViewBytes : Nat := processUserVaddrAllocMaxSize / 2

structure CircularBufferInfo where
  virtualBase : Nat
  viewSize : Nat
  totalVirtualSize : Nat
  deriving DecidableEq, Repr

def freeFrames (frames : List F) (s : UserMemory F) : UserMemory F := frames.foldl (fun s frame => s.deallocateFrame frame) s

variable [DecidableEq F]

/-- Whether all the frames could be had, and those that were taken. -/
def takeFrames : Nat → UserMemory F → Bool × List F × UserMemory F
  | 0, s => (true,[],s)
  | n + 1, s =>
    match s.allocateFrame with
    | none => (false,[],s)
    | some (frame,s) =>
      match takeFrames n (s.zeroFrame frame) with
      | (ok,frames,s) => (ok,frame :: frames,s)

variable [Mapper F]

/-- What map_for_user does with the range. A failure leaves next_alloc_vaddr as it was before the range. -/
def mapViews (virtViewBase dataSize : Nat) (userFlags : PageTableFlags) (nextAllocVaddr : Nat) (s : MemoryLayout F) :
    Option CircularBufferInfo × MemoryLayout F :=
  match takeFrames (dataSize / pageSize) s.space.memory with
  | (false,frames,memory) => (none,{ s with space := { s.space with memory := freeFrames frames memory } })
  | (true,frames,memory) =>
    match { s.space with memory }.mapFrames virtViewBase frames userFlags .owned with
    | (false,space) => (none,{ s with space := { space with memory := freeFrames frames space.memory } })
    | (true,space) =>
      match space.mapFrames (virtViewBase + dataSize) frames userFlags .borrowed with
      | (false,space) => (none,{ s with space := (space.unmapRegion virtViewBase dataSize).2 })
      | (true,space) => (some ⟨virtViewBase,dataSize,2 * dataSize⟩,⟨space,nextAllocVaddr⟩)

def mapForUser (p : Profile) (sizeBytes : UInt64) (pageFlags : PageTableFlags) (s : MemoryLayout F) :
    Outcome (Option CircularBufferInfo × MemoryLayout F) :=
  if sizeBytes = 0 ∨ sizeBytes.toNat > circularBufferMaxViewBytes then .ok (none,s)
  else do
    let dataSize ← Bump.alignUp p sizeBytes.toNat pageSize
    let totalVirtSize ← unsigned p 64 (2 * dataSize)
    let userFlags : PageTableFlags := { present := true, writable := pageFlags.writable, userAccessible := true, noExecute := true }
    let (range,nextAllocVaddr) ← allocateVirtualRange p (UInt64.ofNat totalVirtSize) s.nextAllocVaddr s.space.regions
    match range with
    | none => .ok (none,{ s with nextAllocVaddr })
    | some virtViewBase => .ok (mapViews virtViewBase dataSize userFlags nextAllocVaddr s)

variable {p : Profile} {s t : MemoryLayout F} {memory u : UserMemory F} {sizeBytes : UInt64} {base n first next : Nat}
  {frames : List F} {frame : F} {flags : PageTableFlags}

section Frames

omit [DecidableEq F] [Mapper F] in
theorem freeFrames_spec (frames : List F) (memory : UserMemory F) :
    (freeFrames frames memory).available = ↑frames + memory.available ∧ (freeFrames frames memory).tables = memory.tables ∧
      (freeFrames frames memory).leaves = memory.leaves ∧
      (freeFrames frames memory).allocator.untouched = memory.allocator.untouched := by
  induction frames generalizing memory with
  | nil => exact ⟨(zero_add _).symm,rfl,rfl,rfl⟩
  | cons frame frames ih =>
    obtain ⟨havail,htables,hleaves,huntouched⟩ := ih (memory.deallocateFrame frame)
    refine ⟨havail.trans ?_,htables,hleaves,huntouched⟩
    rw [UserMemory.available_deallocateFrame,Multiset.add_cons,← Multiset.cons_add]
    rfl

omit [Mapper F] in
/-- The frames are taken from those that nobody holds, and hold zeros. -/
theorem takeFrames_spec (n : Nat) (memory : UserMemory F) (hdistinct : memory.available.Nodup) :
    UserMemory.Took memory (takeFrames n memory).2.2 [] ↑(takeFrames n memory).2.1 ∧
      (takeFrames n memory).2.2.leaves = memory.leaves ∧ ((takeFrames n memory).1 = true → (takeFrames n memory).2.1.length = n) ∧
      ∀ frame ∈ (takeFrames n memory).2.1, ∀ i, (takeFrames n memory).2.2.bytes frame i = 0 := by
  induction n generalizing memory with
  | zero => exact ⟨.refl memory,rfl,fun _ => rfl,nofun⟩
  | succ n ih =>
    rw [takeFrames]
    cases halloc : memory.allocateFrame with
    | none => exact ⟨.refl memory,rfl,nofun,nofun⟩
    | some x =>
      obtain ⟨frame,u⟩ := x
      obtain ⟨havail,htables,hleaves,hbytes⟩ := UserMemory.available_of_allocateFrame halloc
      rw [havail] at hdistinct
      obtain ⟨hframe,hdistinct'⟩ := Multiset.nodup_cons.mp hdistinct
      have hone : UserMemory.Took memory (u.zeroFrame frame) [] {frame} := by
        refine ⟨htables,by rw [havail]; simp [UserMemory.zeroFrame,UserMemory.available],List.nodup_nil,by simp,fun f hf => ?_⟩
        rw [havail,Multiset.mem_cons,not_or] at hf
        exact (Function.update_of_ne hf.1 _ _).trans (congrFun hbytes f)
      obtain ⟨htook,hleaves',hlength,hzero⟩ := ih (u.zeroFrame frame) hdistinct'
      dsimp only
      generalize takeFrames n (u.zeroFrame frame) = r at *
      obtain ⟨ok,frames,t⟩ := r
      refine ⟨hone.trans htook,hleaves'.trans hleaves,fun hok => congrArg (· + 1) (hlength hok),?_⟩
      have hnew : (u.zeroFrame frame).bytes frame = fun _ => 0 := Function.update_self ..
      exact List.forall_mem_cons.mpr ⟨fun i => by rw [htook.bytes frame hframe,hnew],hzero⟩

omit [Mapper F] in
/-- A frame that was given back is on the free list once. -/
private theorem count_freeList (h : (↑frames : Multiset F) + memory.available = u.available) (hdistinct : u.available.Nodup)
    (huntouched : u.allocator.untouched = memory.allocator.untouched) (hframe : frame ∈ frames) :
    u.allocator.freeList.count frame = 1 := by
  have hfree : (↑u.allocator.freeList : Multiset F) = ↑frames + ↑memory.allocator.freeList := by
    refine add_right_cancel (b := (↑u.allocator.untouched : Multiset F)) ?_
    rw [UserMemory.available,UserMemory.available,MemoryMapFrameAllocator.available,MemoryMapFrameAllocator.available,huntouched,
      ← Multiset.coe_add,← Multiset.coe_add,← add_assoc] at h
    rw [huntouched]
    exact h.symm
  have hnodup : u.allocator.freeList.Nodup := (List.nodup_append.mp (Multiset.coe_nodup.mp hdistinct)).1
  refine List.count_eq_one_of_mem hnodup (Multiset.mem_coe.mp ?_)
  rw [hfree,Multiset.mem_add]
  exact .inl (Multiset.mem_coe.mpr hframe)

end Frames

/-- What the code relies on: regions that mirror the page tables, and frames none of which is free twice. -/
structure Ready (s : MemoryLayout F) : Prop where
  intact : s.space.memory.Intact
  mirror : s.space.Mirror
  aligned : pageSize ∣ s.nextAllocVaddr
  stop : s.nextAllocVaddr ≤ processUserVaddrAllocEnd
  distinct : s.space.memory.available.Nodup

/-- No page of the range is mapped. -/
def Unmapped (start size : Nat) (space : AddressSpace F) : Prop :=
  ∀ page, Touches start (start + size) page → space.memory.leaves page = none

/-- Everything is as it was, and each of the frames is on the free list once. -/
structure RolledBack (s t : MemoryLayout F) (taken : List F) : Prop where
  regions : t.space.regions = s.space.regions
  next : t.nextAllocVaddr = s.nextAllocVaddr
  leaves : t.space.memory.leaves = s.space.memory.leaves
  frames : ∀ frame ∈ taken, t.space.memory.allocator.freeList.count frame = 1

/-- Both views map the same frames, which hold zeros. Only the first one owns them. -/
structure MappedTwice (info : CircularBufferInfo) (t : MemoryLayout F) : Prop where
  same : ∀ k < info.viewSize / pageSize, ∃ entry,
    t.space.memory.leaves (info.virtualBase / pageSize + k) = some entry ∧
      t.space.memory.leaves ((info.virtualBase + info.viewSize) / pageSize + k) = some entry ∧
      ∀ i, t.space.memory.bytes entry.frame i = 0
  tracked : ∀ k < 2 * (info.viewSize / pageSize), CoversPage t.space.regions (info.virtualBase / pageSize + k)
  owners : ∀ r ∈ t.space.regions, ∀ k < info.viewSize / pageSize,
    (Within r (info.virtualBase / pageSize + k) → r.frameOwnership = .owned) ∧
      (Within r ((info.virtualBase + info.viewSize) / pageSize + k) → r.frameOwnership = .borrowed)

section Views
variable {space : AddressSpace F}

open ProcessMemoryLayout (placed placed_new)

omit [Mapper F] in
/-- The frames are given back by hand. -/
private theorem rolledBack_freed (space : AddressSpace F) (h : Ready s) (hregions : space.regions = s.space.regions)
    (hleaves : space.memory.leaves = s.space.memory.leaves) (hle : ↑frames + space.memory.available ≤ s.space.memory.available) :
    RolledBack s { s with space := { space with memory := freeFrames frames space.memory } } frames := by
  obtain ⟨havail,-,hleaves',huntouched⟩ := freeFrames_spec frames space.memory
  exact ⟨hregions,rfl,hleaves'.trans hleaves,fun frame hframe =>
    count_freeList havail.symm (havail ▸ Multiset.nodup_of_le hle h.distinct) huntouched hframe⟩

omit [DecidableEq F] [Mapper F] in
private theorem Unmapped.leaf (h : Unmapped (first * pageSize) (2 * (n * pageSize)) space) {i : Nat} (hi : i < 2 * n) :
    space.memory.leaves (first + i) = none := by
  refine h _ ?_
  unfold Touches pageSize
  omega

omit [DecidableEq F] [Mapper F] in
/-- No region meets it either. -/
private theorem Unmapped.regions (hunmapped : Unmapped (first * pageSize) (2 * (n * pageSize)) s.space) (h : Ready s) (hn : 0 < n) :
    ∀ r ∈ s.space.regions, r.endVirt ≤ first * pageSize ∨ first * pageSize + 2 * (n * pageSize) ≤ r.startVirt := by
  rw [← Nat.mul_assoc] at *
  refine (h.mirror.ordered.apart_iff (Nat.dvd_mul_left ..) (Nat.dvd_mul_left ..) (Nat.mul_pos (Nat.mul_pos (by decide) hn) (by decide))).mpr
    fun page hle hlt hcov => (h.mirror.covers page).mp hcov (hunmapped page ?_)
  unfold Touches pageSize at *
  omega

/-- The frames are given back with the region of the first view. -/
private theorem rolledBack_unmapped (h : Ready s) (hunmapped : Unmapped (first * pageSize) (2 * (frames.length * pageSize)) s.space)
    (hframes : 0 < frames.length) (hintact : space.memory.Intact)
    (hregions : space.regions = trackRegion ⟨first * pageSize,frames.length * pageSize,flags,.owned⟩ s.space.regions)
    (hleaves : space.memory.leaves = placed first frames flags s.space.memory.leaves)
    (hle : ↑frames + space.memory.available ≤ s.space.memory.available) :
    RolledBack s { s with space := (space.unmapRegion (first * pageSize) (frames.length * pageSize)).2 } frames := by
  obtain ⟨found,hcarve,-,howner⟩ := carve_trackRegion
    ⟨first * pageSize,frames.length * pageSize,flags,.owned⟩ h.mirror.ordered.sorted (Nat.dvd_mul_left ..) (Nat.dvd_mul_left ..)
    (Nat.mul_pos hframes (by decide)) fun r hr => ⟨(h.mirror.ordered.aligned r hr).positive,(hunmapped.regions h hframes r hr).imp_right fun hr => by
      have := Nat.mul_pos hframes (show 0 < pageSize by decide)
      simp only [MappedMemoryRegion.endVirt]
      omega⟩
  rw [MappedMemoryRegion.endVirt] at hcarve
  have hcount : UserMemory.pageCount (first * pageSize) (frames.length * pageSize) = frames.length := by
    unfold UserMemory.pageCount pageSize
    omega
  have hunmap : space.memory.unmapUserRegion
      { found with startVirt := first * pageSize, sizeBytes := frames.length * pageSize } =
        space.memory.unmapPages .owned first frames.length := by
    rw [UserMemory.unmapUserRegion,if_neg (Nat.mul_ne_zero (Nat.ne_of_gt hframes) (by decide)),howner,hcount,
      Nat.mul_div_cancel _ (by decide)]
  obtain ⟨hleaves',-,-,havail,huntouched⟩ := UserMemory.unmapPages_spec .owned hintact.present first frames.length
  rw [if_pos rfl,hleaves,AddressSpace.framesOf_placed] at havail
  rw [AddressSpace.unmapRegion,hregions,hcarve]
  dsimp only
  rw [hunmap]
  refine ⟨rfl,rfl,hleaves'.trans (funext fun page => ?_),fun frame hframe =>
    count_freeList havail.symm (havail ▸ Multiset.nodup_of_le hle h.distinct) huntouched hframe⟩
  split_ifs with hpage
  · obtain ⟨i,rfl⟩ := Nat.exists_eq_add_of_le hpage.1
    exact (hunmapped.leaf (by omega)).symm
  · rw [hleaves,placed]
    split_ifs with hle'
    · rw [List.getElem?_eq_none (by omega)]
      rfl
    · rfl

/-- Whose the pages of the two views are. -/
private def Views (first n : Nat) (owner : FrameOwnership) (page : Nat) : Prop :=
  (first ≤ page → page < first + n → owner = .owned) ∧ (first + n ≤ page → page < first + n + n → owner = .borrowed)

omit [DecidableEq F] [Mapper F] in
private theorem mappedTwice (h : Ready s) (hunmapped : Unmapped (first * pageSize) (2 * (frames.length * pageSize)) s.space)
    (hframes : 0 < frames.length)
    (hregions : space.regions = trackRegion ⟨(first + frames.length) * pageSize,frames.length * pageSize,flags,.borrowed⟩
      (trackRegion ⟨first * pageSize,frames.length * pageSize,flags,.owned⟩ s.space.regions))
    (hleaves : space.memory.leaves = placed (first + frames.length) frames flags (placed first frames flags s.space.memory.leaves))
    (hzero : ∀ frame ∈ frames, ∀ i, space.memory.bytes frame i = 0) :
    MappedTwice ⟨first * pageSize,frames.length * pageSize,2 * (frames.length * pageSize)⟩ ⟨space,next⟩ := by
  have hsize : 0 < frames.length * pageSize := Nat.mul_pos hframes (by decide)
  obtain ⟨hordered,hcovers⟩ := h.mirror.ordered.trackRegion ⟨first * pageSize,frames.length * pageSize,flags,.owned⟩ hsize
  obtain ⟨-,hcovers'⟩ := hordered.trackRegion ⟨(first + frames.length) * pageSize,frames.length * pageSize,flags,.borrowed⟩ hsize
  have hfirst : ∀ page, Touches (first * pageSize) (first * pageSize + frames.length * pageSize) page ↔
      first ≤ page ∧ page < first + frames.length := fun page => touches_pages
  have hsecond : ∀ page,
      Touches ((first + frames.length) * pageSize) ((first + frames.length) * pageSize + frames.length * pageSize) page ↔
        first + frames.length ≤ page ∧ page < first + frames.length + frames.length := fun page => touches_pages
  have howners := h.mirror.ordered.trackRegion_each (Q := Views first frames.length)
    ⟨first * pageSize,frames.length * pageSize,flags,.owned⟩ hsize
    (fun r hr page hpage => by
      have hapart := hunmapped.regions h hframes r hr
      unfold pageSize at *
      constructor <;> intro _ _ <;> omega)
    fun page hpage => ⟨fun _ _ => rfl,fun hle _ => absurd ((hfirst page).mp hpage).2 (Nat.not_lt.mpr hle)⟩
  have howners' := hordered.trackRegion_each (Q := Views first frames.length)
    ⟨(first + frames.length) * pageSize,frames.length * pageSize,flags,.borrowed⟩ hsize howners
    fun page hpage => ⟨fun _ hlt => absurd hlt (Nat.not_lt.mpr ((hsecond page).mp hpage).1),fun _ _ => rfl⟩
  have hbase : first * pageSize / pageSize = first := Nat.mul_div_cancel _ (by decide)
  have hview : frames.length * pageSize / pageSize = frames.length := Nat.mul_div_cancel _ (by decide)
  have hbehind : (first * pageSize + frames.length * pageSize) / pageSize = first + frames.length := by
    rw [← Nat.add_mul,Nat.mul_div_cancel _ (by decide)]
  refine ⟨fun k hk => ?_,fun k hk => ?_,fun r hr k hk => ?_⟩ <;> dsimp only at * <;> simp only [hbase,hview,hbehind] at *
  · refine ⟨⟨frames[k],{ flags with userAccessible := true }⟩,?_,by rw [hleaves,placed_new hk],hzero _ (List.getElem_mem hk)⟩
    rw [hleaves,placed,if_neg (by omega),placed_new hk]
  · rw [hregions,hcovers',hcovers]
    obtain hlt | hge := Nat.lt_or_ge k frames.length
    · exact .inl (.inr ((hfirst _).mpr ⟨by omega,by omega⟩))
    · exact .inr ((hsecond _).mpr ⟨by omega,by omega⟩)
  · rw [hregions] at hr
    exact ⟨fun hwithin => (howners' r hr _ hwithin).1 (by omega) (by omega),
      fun hwithin => (howners' r hr _ hwithin).2 (by omega) (by omega)⟩

/-- Each of the three points of failure with its way back. -/
private theorem mapViews_spec (flags : PageTableFlags) (next : Nat) (h : Ready s)
    (hunmapped : Unmapped (first * pageSize) (2 * (n * pageSize)) s.space) (hn : 0 < n) (hflags : flags.present) :
    ((mapViews (first * pageSize) (n * pageSize) flags next s).1 = none →
      RolledBack s (mapViews (first * pageSize) (n * pageSize) flags next s).2 (takeFrames n s.space.memory).2.1) ∧
    ∀ info, (mapViews (first * pageSize) (n * pageSize) flags next s).1 = some info →
      info = ⟨first * pageSize,n * pageSize,2 * (n * pageSize)⟩ ∧
        MappedTwice info (mapViews (first * pageSize) (n * pageSize) flags next s).2 := by
  obtain ⟨htook,hleaves,hlength,hzero⟩ := takeFrames_spec n s.space.memory h.distinct
  rw [mapViews,Nat.mul_div_cancel _ (by decide)]
  generalize takeFrames n s.space.memory = r at *
  obtain ⟨ok,frames,memory⟩ := r
  dsimp only at *
  have hall : ↑frames + memory.available = s.space.memory.available := by simpa using htook.available.symm
  cases ok with
  | false => exact ⟨fun _ => rolledBack_freed { s.space with memory } h rfl hleaves hall.le,fun _ hinfo => by cases hinfo⟩
  | true =>
    obtain rfl := hlength rfl
    have hintact : memory.Intact := h.intact.of_leaves htook.subset_tableKeys hleaves
    obtain ⟨⟨new,htook₁⟩,hcase⟩ := AddressSpace.mapFrames_unmapped { s.space with memory } first .owned hintact hflags
      (List.ne_nil_of_length_pos hn) fun i hi => by
        dsimp only
        rw [hleaves]
        exact hunmapped.leaf (by omega)
    have hkeeps : ((AddressSpace.mapFrames (first * pageSize) frames flags .owned { s.space with memory }).2.memory).Intact :=
      AddressSpace.mapFrames_keeps hintact hflags
    dsimp only at *
    generalize AddressSpace.mapFrames (first * pageSize) frames flags .owned { s.space with memory } = r₁ at *
    obtain ⟨ok₁,space₁⟩ := r₁
    dsimp only at *
    have hle : ↑frames + space₁.memory.available ≤ s.space.memory.available := hall ▸ add_le_add_right htook₁.le_available _
    obtain ⟨rfl,hleaves₁,hregions₁⟩ | ⟨rfl,hleaves₁,hregions₁⟩ := hcase
    · rw [hleaves] at hleaves₁
      obtain ⟨⟨new₂,htook₂⟩,hcase₂⟩ := AddressSpace.mapFrames_unmapped space₁ (first + frames.length) .borrowed hkeeps hflags
        (List.ne_nil_of_length_pos hn) fun i hi => by
          rw [hleaves₁,placed,if_pos (by omega),List.getElem?_eq_none (by omega),Nat.add_assoc]
          exact hunmapped.leaf (by omega)
      have hkeeps₂ : ((AddressSpace.mapFrames ((first + frames.length) * pageSize) frames flags .borrowed space₁).2.memory).Intact :=
        AddressSpace.mapFrames_keeps hkeeps hflags
      dsimp only
      rw [← Nat.add_mul]
      generalize AddressSpace.mapFrames ((first + frames.length) * pageSize) frames flags .borrowed space₁ = r₂ at *
      obtain ⟨ok₂,space₂⟩ := r₂
      dsimp only at *
      obtain ⟨rfl,hleaves₂,hregions₂⟩ | ⟨rfl,hleaves₂,hregions₂⟩ := hcase₂
      · refine ⟨(fun hfail => by cases hfail),fun info hinfo => ?_⟩
        cases hinfo
        refine ⟨rfl,mappedTwice h hunmapped hn (hregions₂.trans (congrArg _ hregions₁)) (hleaves₂.trans (congrArg _ hleaves₁)) ?_⟩
        intro frame hframe i
        -- neither of the mappings writes to a frame that is held
        have hheld : frame ∉ memory.available := by
          have hdistinct := h.distinct
          rw [← hall] at hdistinct
          exact Multiset.disjoint_left.mp (Multiset.nodup_add.mp hdistinct).2.2 (Multiset.mem_coe.mpr hframe)
        rw [htook₂.bytes frame fun hfree => hheld (Multiset.mem_of_le htook₁.le_available hfree),htook₁.bytes frame hheld]
        exact hzero frame hframe i
      · refine ⟨fun _ => rolledBack_unmapped h hunmapped hn hkeeps₂ (hregions₂.trans hregions₁) (hleaves₂.trans hleaves₁) ?_,
          fun _ hinfo => by cases hinfo⟩
        exact (add_le_add_right htook₂.le_available _).trans hle
    · exact ⟨fun _ => rolledBack_freed space₁ h hregions₁ (hleaves₁.trans hleaves) hle,fun _ hinfo => by cases hinfo⟩

end Views

/-- The frames that a call takes for data. -/
def takenFrames (p : Profile) (sizeBytes : UInt64) (s : MemoryLayout F) : List F :=
  if sizeBytes = 0 ∨ sizeBytes.toNat > circularBufferMaxViewBytes then []
  else
    match allocateVirtualRange p (UInt64.ofNat (2 * alignToPageSize sizeBytes.toNat)) s.nextAllocVaddr s.space.regions with
    | .ok (some _,_) => (takeFrames (alignToPageSize sizeBytes.toNat / pageSize) s.space.memory).2.1
    | _ => []

/-- The range that would be reserved is not mapped. -/
def RangeUnmapped (p : Profile) (sizeBytes : UInt64) (s : MemoryLayout F) : Prop :=
  ∀ base next, allocateVirtualRange p (UInt64.ofNat (2 * alignToPageSize sizeBytes.toNat)) s.nextAllocVaddr s.space.regions =
    .ok (some base,next) → Unmapped base (2 * alignToPageSize sizeBytes.toNat) s.space

/-- A buffer is mapped twice, or nothing has changed. -/
theorem mapForUser_allOrNothing (h : Ready s) (hrange : RangeUnmapped p sizeBytes s) (pageFlags : PageTableFlags) :
    ∃ info t, mapForUser p sizeBytes pageFlags s = .ok (info,t) ∧
      (info = none → RolledBack s t (takenFrames p sizeBytes s)) ∧
      ∀ views, info = some views → views.viewSize = alignToPageSize sizeBytes.toNat ∧ MappedTwice views t := by
  unfold mapForUser takenFrames
  split_ifs with hsize
  · exact ⟨none,s,rfl,fun _ => ⟨rfl,rfl,rfl,nofun⟩,nofun⟩
  obtain ⟨hpos,hmax⟩ := not_or.mp hsize
  have hpos : 0 < sizeBytes := UInt64.pos_iff_ne_zero.mpr hpos
  have hview : alignToPageSize sizeBytes.toNat ≤ circularBufferMaxViewBytes := by
    unfold alignToPageSize pageSize circularBufferMaxViewBytes processUserVaddrAllocMaxSize at *
    omega
  have halign : Bump.alignUp p sizeBytes.toNat pageSize = .ok (alignToPageSize sizeBytes.toNat) := Bump.alignUp_of_lt (by
    unfold circularBufferMaxViewBytes processUserVaddrAllocMaxSize Memory.pageSize at *
    omega)
  have hword : 2 * alignToPageSize sizeBytes.toNat < 2^64 := by
    unfold circularBufferMaxViewBytes processUserVaddrAllocMaxSize at hview
    omega
  obtain ⟨n,hn⟩ : ∃ n, alignToPageSize sizeBytes.toNat = n * pageSize := ⟨_,rfl⟩
  have hsize := alignToPageSize_pos hpos
  unfold RangeUnmapped at hrange
  obtain ⟨gap,next,halloc,hcase⟩ := allocateVirtualRange_cases (p := p) h.mirror.ordered h.stop
    (UInt64.ofNat (2 * alignToPageSize sizeBytes.toNat))
  have htotal : unsigned p 64 (2 * (alignToPageSize sizeBytes.toNat : Nat)) = .ok (2 * alignToPageSize sizeBytes.toNat) :=
    unsigned_mul hword
  rw [halign,ok_bind,htotal,ok_bind]
  dsimp only
  rw [halloc,ok_bind]
  cases gap with
  | none =>
    have hnext : next = s.nextAllocVaddr := by
      obtain ⟨-,hnext⟩ | ⟨-,hsome,-⟩ | ⟨-,hnext,-⟩ := hcase
      · exact hnext
      · cases hsome
      · exact hnext
    exact ⟨none,_,rfl,fun _ => ⟨rfl,hnext,rfl,nofun⟩,nofun⟩
  | some base =>
    have haligned : pageSize ∣ base := by
      obtain ⟨hnone,-⟩ | ⟨-,hsome,-⟩ | ⟨-,-,hfinds⟩ := hcase
      · cases hnone
      · cases hsome
        exact h.aligned
      · exact (hfinds.1 base rfl).1.1.1
    obtain ⟨first,rfl⟩ := exists_eq_mul_left_of_dvd haligned
    have hunmapped := hrange _ next halloc
    rw [hn] at hsize hunmapped ⊢
    obtain ⟨hnone,hsome⟩ := mapViews_spec
      { present := true, writable := pageFlags.writable, userAccessible := true, noExecute := true } next h hunmapped (Nat.pos_of_mul_pos_right hsize) rfl
    generalize hmapped : mapViews (first * pageSize) (n * pageSize) _ next s = r at hnone hsome
    refine ⟨r.1,r.2,congrArg Except.ok hmapped,fun hinfo => ?_,fun views hviews => ?_⟩
    · rw [Nat.mul_div_cancel _ (by decide)]
      exact hnone hinfo
    · obtain ⟨rfl,htwice⟩ := hsome views hviews
      exact ⟨rfl,htwice⟩

/-- A new address space with n frames, and one page left in front of a border between page tables. -/
private abbrev border (n : Nat) : MemoryLayout Nat := ⟨AddressSpace.smallSpace n,0x101FF000⟩

private theorem ready_border (n : Nat) : Ready (border n) :=
  have ⟨hmirror,hintact⟩ := AddressSpace.withPageTable_mirror 0 (border n).space.memory
  ⟨hintact,hmirror,(by decide : pageSize ∣ 0x101FF000),(by decide : 0x101FF000 ≤ processUserVaddrAllocEnd),Multiset.coe_nodup.mpr (List.nodup_range' ..)⟩

/-- With four frames one is for data and three are for page tables, the first view is mapped, and the second one needs
another table. With eight the buffer is made. -/
theorem mapForUser_allOrNothing_border :
    (takenFrames .dev 0x1000 (border 4) = [1] ∧ ∃ t, mapForUser .dev 0x1000 AddressSpace.dataFlags (border 4) = .ok (none,t) ∧
        RolledBack (border 4) t (takenFrames .dev 0x1000 (border 4))) ∧
      ∃ views t, mapForUser .dev 0x1000 AddressSpace.dataFlags (border 8) = .ok (some views,t) ∧
        views.viewSize = alignToPageSize (0x1000 : UInt64).toNat ∧ MappedTwice views t := by
  have hnone : (mapForUser .dev 0x1000 AddressSpace.dataFlags (border 4)).toOption.map Prod.fst = some none := by decide +kernel
  have hsome : (mapForUser .dev 0x1000 AddressSpace.dataFlags (border 8)).toOption.map Prod.fst =
      some (some ⟨0x101FF000,0x1000,0x2000⟩) := by decide +kernel
  obtain ⟨info,t,hrun,hback,-⟩ := mapForUser_allOrNothing (ready_border 4) (show RangeUnmapped .dev 0x1000 (border 4) from
    fun _ _ _ _ _ => rfl) AddressSpace.dataFlags
  obtain ⟨info',t',hrun',-,htwice⟩ := mapForUser_allOrNothing (ready_border 8) (show RangeUnmapped .dev 0x1000 (border 8) from
    fun _ _ _ _ _ => rfl) AddressSpace.dataFlags
  rw [hrun] at hnone
  rw [hrun'] at hsome
  cases hnone
  cases hsome
  exact ⟨⟨by decide +kernel,t,hrun,hback rfl⟩,_,t',hrun',htwice _ rfl⟩

/-- A region that covers the range is left from pages that are mapped no more. -/
private abbrev stale : MemoryLayout Nat :=
  ⟨{ AddressSpace.smallSpace 4 with regions := [⟨0x101FE000,0x3000,AddressSpace.dataFlags,.borrowed⟩] },0x101FF000⟩

/-- No page of the range is mapped there, but the way back finds that region: the data frame is lost with the first view, and
the regions are others. -/
theorem mapForUser_finds_stale : allocateVirtualRange .dev 0x2000 stale.nextAllocVaddr stale.space.regions =
      .ok (some 0x101FF000,0x10201000) ∧ Unmapped 0x101FF000 0x2000 stale.space ∧ takenFrames .dev 0x1000 stale = [1] ∧
    ∃ t, mapForUser .dev 0x1000 AddressSpace.dataFlags stale = .ok (none,t) ∧ ¬ RolledBack stale t [1] := by
  have hresult : (mapForUser .dev 0x1000 AddressSpace.dataFlags stale).toOption.map (fun r => (r.1,r.2.space.regions.length)) =
      some (none,3) := by decide +kernel
  refine ⟨by decide +kernel,fun _ _ => rfl,by decide +kernel,?_⟩
  obtain ⟨r,hrun,hfst⟩ := Option.map_eq_some_iff.mp hresult
  obtain ⟨info,t⟩ := r
  cases (Prod.mk.inj hfst).1
  refine ⟨t,of_toOption hrun,fun hback => ?_⟩
  have hlength := (Prod.mk.inj hfst).2
  rw [hback.regions] at hlength
  cases hlength

end CircularBuffer
end MofuOS.Process
